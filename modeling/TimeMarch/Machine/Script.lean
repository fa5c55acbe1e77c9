import TimeMarch.Machine
import TimeMarch.Storage

/-!
# Scripted Hosts

A host whose functions are a list of replies: the first call gets the first reply, and so on, and a
call beyond the list fails. It keeps a record of the calls.
-/

namespace TimeMarch

/-- A call as the host sees it. -/
structure HostCall where
  function : Nat
  positional : List Value
  keywords : List (String × Value)

/-- The state of a scripted host: its storage, the replies that are left, and the calls so far, the
last one first. -/
structure Script where
  storage : Storage := {}
  replies : List Value := []
  calls : List HostCall := []

namespace Script

def call (s : Script) (function : Nat) (positional : List Value)
    (keywords : List (String × Value)) : Except MachineError Value × Script :=
  let calls := ⟨function, positional, keywords⟩ :: s.calls
  match s.replies with
  | [] => (.error (.functionFailed (toString function) "no reply"), { s with calls })
  | v :: replies => (.ok v, { s with calls, replies })

def host : Host Script where
  load s slot := s.storage.get? slot
  store s slot v := { s with storage := s.storage.set slot v }
  call := call

/-- Resume a frame a number of times, whatever comes of it. Each result stands beside the frame's
transition at that time. -/
def resumeTimes (c : Code) (limit : Nat) : (n : Nat) → Frame → Script →
    List (Except MachineError Yield × Option Nat) × Script
  | 0, _, s => ([], s)
  | n + 1, f, s =>
    let (result, f, s) := Machine.resume c host limit f s
    let (results, s) := resumeTimes c limit n f s
    ((result, f.transition) :: results, s)

end Script

end TimeMarch
