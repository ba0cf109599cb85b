import Packio.NlJsonRpc.IncrementalBuffers
import Packio.NlJsonRpc.Representation
import Packio.NlJsonRpc.Framing
import Packio.NlJsonRpc.Recognition
import Packio.NlJsonRpc.InPlace
import Packio.NlJsonRpc.Queue
import Packio.Client.Msgpack
import Packio.Client.Client
import Packio.Client.CallTable
import Packio.Client.Timers
import Packio.Client.Ids
import Packio.Client.Dispatch
import Packio.Client.Writes
import Packio.Client.Reading
import Packio.Client.Stalled
import Packio.Client.Routing
import Packio.Client.Expiry
import Packio.Client.Serial
