import Mathlib.Logic.Function.Basic

/-!
Commands to the keyboard (`Keyboard.cpp`). `SendCommand` writes a byte and waits until
the interrupt handler, `KeyEvent`, has recorded the answer. The keyboard answers each byte
that it receives, with `RESEND` as often as it wants to see the byte again and with `ACK`
then, and its interrupts come when a schedule says so. The loop that would send the data
is entered only while its index, 0 at first, is above the number of bytes; so a command is
sent as it should be exactly when it has no data and the keyboard takes it at once
(`sendCommand_iff`).
-/
namespace WaifuOS.Keyboard

namespace Response

def ERR0 : BitVec 8 := 0x00
def ERR1 : BitVec 8 := 0xFF
def TESTPASS : BitVec 8 := 0xAA
def ECHO : BitVec 8 := 0xEE
def ACK : BitVec 8 := 0xFA
def RESEND : BitVec 8 := 0xFE
def TESTFAIL1 : BitVec 8 := 0xFC
def TESTFAIL2 : BitVec 8 := 0xFD

end Response

/-- When the interrupt of a byte that waits in the port is taken, and what `Resend` returns where it ends without
    a return. -/
structure Environment where
  schedule : Nat → Bool
  fellThrough : Bool

/-- The globals that a command uses, and the keyboard: the bytes that wait in its port, the byte that was read last,
    how often it will ask again for each byte to come, and what was written to it. -/
structure State where
  resendCount : BitVec 8
  cmdResponse : BitVec 8
  prevCommand : BitVec 8
  SendingCommand : Bool
  KBPort : List (BitVec 8)
  last : BitVec 8
  asks : Nat → Nat
  written : List (BitVec 8)
  time : Nat

namespace State

/-- `outb(KBPort, byte)`: the keyboard receives a byte and answers it. -/
def outb (s : State) (byte : BitVec 8) : State :=
  let s := { s with written := s.written ++ [byte] }
  if s.asks 0 = 0 then { s with KBPort := s.KBPort ++ [Response.ACK], asks := fun i => s.asks (i+1) }
  else { s with KBPort := s.KBPort ++ [Response.RESEND], asks := Function.update s.asks 0 (s.asks 0 - 1) }

/-- `inb(KBPort)`. A port without a byte reads as before. -/
def inb (s : State) : BitVec 8 × State :=
  match s.KBPort with
  | [] => (s.last,s)
  | byte :: rest => (byte,{ s with KBPort := rest, last := byte })

/-- `KeyEvent`. Outside of a command the byte is a key, which changes none of this. -/
def KeyEvent (s : State) : State :=
  let (sc1,s) := s.inb
  if s.SendingCommand then
    if sc1 = Response.ERR0 ∨ sc1 = Response.ERR1 then { s with cmdResponse := Response.ERR1 }
    else if sc1 = Response.TESTFAIL1 then
      let (sc2,s) := s.inb
      if sc2 = Response.TESTFAIL2 then { s with cmdResponse := sc2 } else { s with cmdResponse := sc1 }
    else if sc1 = Response.ACK then { s with resendCount := 0x00, cmdResponse := sc1 }
    else { s with cmdResponse := sc1 }
  else s

/-- A place where an interrupt may come. -/
def interrupt (env : Environment) (s : State) : State :=
  let due := env.schedule s.time
  let s := { s with time := s.time + 1 }
  if due ∧ s.KBPort ≠ [] then s.KeyEvent else s

/-- A byte is written, and its interrupt may come at once. -/
def send (env : Environment) (s : State) (byte : BitVec 8) : State := (s.outb byte).interrupt env

/-- `while (!cmdResponse) hlt;`. -/
def wait (env : Environment) : Nat → State → Option State
  | 0, _ => none
  | fuel+1, s => if s.cmdResponse = 0 then wait env fuel (s.interrupt env) else some s

def Resend (env : Environment) (s : State) : Bool × State :=
  let tries := s.resendCount
  let s := { s with resendCount := s.resendCount + 1 }
  if tries.toNat > 2 then (false,{ s with resendCount := 0x00 }) else (env.fellThrough,s.send env s.prevCommand)

/-- The loop of `SendCommand` from an index on: the answer that ends the command early, if one does. -/
def sendData (env : Environment) (data : Nat → BitVec 8) (datacount : BitVec 8) : Nat → State → BitVec 16 → Option (Option (BitVec 8) × State)
  | 0, _, _ => none
  | fuel+1, s, index =>
    if index.toInt > datacount.toNat then do
      let s ← s.wait env fuel
      let finish (answer : BitVec 8) := some (some answer,{ s with SendingCommand := false })
      if s.cmdResponse = Response.ERR0 ∨ s.cmdResponse = Response.ERR1 then finish Response.ERR1
      else if s.cmdResponse = Response.TESTFAIL1 ∨ s.cmdResponse = Response.TESTFAIL2 then finish Response.TESTFAIL2
      else if s.cmdResponse = Response.ECHO then finish Response.ECHO
      else if s.cmdResponse = Response.TESTPASS then finish Response.TESTPASS
      else
        -- After a resend the answer counts as `ACK`.
        let (sent,s) := if s.cmdResponse = Response.RESEND then s.Resend env else (true,s)
        if !sent then some (some Response.ERR1,{ s with cmdResponse := 0x00, prevCommand := 0x00, SendingCommand := false })
        else
          let s := { s with cmdResponse := 0x00, resendCount := 0x00, prevCommand := data index.toNat }
          sendData env data datacount fuel (s.send env (data index.toNat)) (index+1)
    else some (none,s)

def SendCommand (env : Environment) (fuel : Nat) (s : State) (cmd : BitVec 8) (data : Nat → BitVec 8) (datacount : BitVec 8) :
    Option (BitVec 8 × State) := do
  let s := { s with cmdResponse := 0x00, prevCommand := cmd, SendingCommand := true }
  let (early,s) ← (s.send env cmd).sendData env data datacount fuel 0
  match early with
  | some answer => some (answer,s)
  | none =>
    let s ← s.wait env fuel
    some (s.cmdResponse,{ s with SendingCommand := false })

/-- The command and its data, each byte as often as the keyboard wants to see it. -/
def wanted (s : State) (cmd : BitVec 8) (data : Nat → BitVec 8) (datacount : BitVec 8) : List (BitVec 8) :=
  List.replicate (s.asks 0 + 1) cmd ++ (List.range datacount.toNat).flatMap fun i => List.replicate (s.asks (i+1) + 1) (data i)

/-- The command returns `ACK`, and exactly these bytes were written. -/
def Sends (env : Environment) (s : State) (cmd : BitVec 8) (data : Nat → BitVec 8) (datacount : BitVec 8) : Prop :=
  ∃ fuel s', s.SendCommand env fuel cmd data datacount = some (Response.ACK,s') ∧
    s'.written = s.written ++ s.wanted cmd data datacount

/-- An answer is in the port, or was recorded; nothing else is written. -/
structure Answered (written : List (BitVec 8)) (answer : BitVec 8) (s : State) : Prop where
  sending : s.SendingCommand = true
  written : s.written = written
  answer : (s.cmdResponse = 0 ∧ s.KBPort = [answer]) ∨ (s.cmdResponse = answer ∧ s.KBPort = [])

variable {env : Environment} {s s' : State} {cmd answer datacount : BitVec 8} {data : Nat → BitVec 8} {fuel : Nat} {written : List (BitVec 8)}

/-- The answers of the keyboard. -/
def Expected (answer : BitVec 8) : Prop := answer = Response.ACK ∨ answer = Response.RESEND

theorem Expected.ne_zero (expected : Expected answer) : answer ≠ 0 := by
  rcases expected with rfl | rfl
  · decide
  · decide

/-- The handler records the answer that waits in the port. -/
theorem keyEvent_records (expected : Expected answer) (sending : s.SendingCommand = true) (port : s.KBPort = [answer]) :
    s.KeyEvent.cmdResponse = answer ∧ s.KeyEvent.KBPort = [] ∧ s.KeyEvent.SendingCommand = true ∧ s.KeyEvent.written = s.written := by
  rcases expected with rfl | rfl
  · simp [KeyEvent,inb,port,sending,Response.ACK,Response.ERR0,Response.ERR1,Response.TESTFAIL1]
  · simp [KeyEvent,inb,port,sending,Response.ACK,Response.RESEND,Response.ERR0,Response.ERR1,Response.TESTFAIL1]

/-- An interrupt takes nothing from it. -/
theorem Answered.interrupt (answered : Answered written answer s) (expected : Expected answer) (env : Environment) :
    Answered written answer (s.interrupt env) := by
  obtain ⟨sending,same,state⟩ := answered
  rw [State.interrupt]
  split
  · next due =>
    rcases state with ⟨_,port⟩ | ⟨_,port⟩
    · obtain ⟨recorded,empty,still,kept⟩ := keyEvent_records (s := { s with time := s.time + 1 }) expected sending port
      exact ⟨still,kept.trans same,.inr ⟨recorded,empty⟩⟩
    · exact absurd port due.2
  · exact ⟨sending,same,state⟩

/-- What is waited for is the answer. -/
theorem wait_answered (answered : Answered written answer s) (expected : Expected answer) (waited : s.wait env fuel = some s') :
    s'.cmdResponse = answer ∧ s'.written = written := by
  induction fuel generalizing s with
  | zero => cases waited
  | succ fuel ih =>
    rw [wait] at waited
    split at waited
    · exact ih (answered.interrupt expected env) waited
    · next recorded =>
      cases waited
      rcases answered.answer with ⟨none,_⟩ | ⟨done,_⟩
      · exact absurd none recorded
      · exact ⟨done,answered.written⟩

/-- An answer whose interrupt is due is recorded. -/
theorem interrupt_due (due : env.schedule s.time = true) (expected : Expected answer) (sending : s.SendingCommand = true)
    (port : s.KBPort = [answer]) : (s.interrupt env).cmdResponse = answer := by
  have taken : s.interrupt env = { s with time := s.time + 1 }.KeyEvent := by
    rw [State.interrupt,due,if_pos ⟨rfl,by rw [port]; simp⟩]
  rw [taken]
  exact (keyEvent_records (s := { s with time := s.time + 1 }) expected sending port).1

theorem wait_recorded (recorded : s.cmdResponse = answer) (expected : Expected answer) : s.wait env 1 = some s := by
  rw [wait,recorded,if_neg expected.ne_zero]

/-- An answer whose interrupt is due ends the wait. -/
theorem wait_due (due : env.schedule s.time = true) (expected : Expected answer) (answered : Answered written answer s) :
    ∃ fuel s', s.wait env fuel = some s' := by
  rcases answered.answer with ⟨none,port⟩ | ⟨done,_⟩
  · refine ⟨2,s.interrupt env,?_⟩
    rw [wait,if_pos none]
    exact wait_recorded (interrupt_due due expected answered.sending port) expected
  · exact ⟨1,s,wait_recorded done expected⟩

/-- It comes, since its interrupt does. -/
theorem wait_returns (fair : ∀ n, ∃ k, n ≤ k ∧ env.schedule k = true) (answered : Answered written answer s)
    (expected : Expected answer) : ∃ fuel s', s.wait env fuel = some s' := by
  obtain ⟨k,later,due⟩ := fair s.time
  -- By the number of places before the next one where it is due.
  induction left : k - s.time generalizing s with
  | zero =>
    have now : k = s.time := by omega
    exact wait_due (now ▸ due) expected answered
  | succ left ih =>
    rcases answered.answer with ⟨none,_⟩ | ⟨done,_⟩
    · cases now : env.schedule s.time with
      | true => exact wait_due now expected answered
      | false =>
        have time : (s.interrupt env).time = s.time + 1 := by simp [State.interrupt,now]
        obtain ⟨fuel,s',waited⟩ := ih (answered.interrupt expected env) (by omega) (by omega)
        exact ⟨fuel+1,s',by rw [wait,if_pos none]; exact waited⟩
    · exact ⟨1,s,wait_recorded done expected⟩

/-- What the keyboard answers to a byte. -/
def reply (s : State) : BitVec 8 := if s.asks 0 = 0 then Response.ACK else Response.RESEND

theorem reply_expected (s : State) : Expected s.reply := by
  simp only [reply]
  split
  · exact .inl rfl
  · exact .inr rfl

/-- A byte that is sent to an idle keyboard is answered. -/
theorem send_answered (idle : s.KBPort = []) (none : s.cmdResponse = 0) (sending : s.SendingCommand = true) (byte : BitVec 8) :
    Answered (s.written ++ [byte]) s.reply (s.send env byte) := by
  refine Answered.interrupt ?_ (reply_expected s) env
  by_cases once : s.asks 0 = 0
  · simp only [outb,reply,if_pos once]
    exact ⟨sending,rfl,.inl ⟨none,by simp [idle]⟩⟩
  · simp only [outb,reply,if_neg once]
    exact ⟨sending,rfl,.inl ⟨none,by simp [idle]⟩⟩

/-- The loop that would send the data is not entered. -/
theorem sendData_skipped (env : Environment) (data : Nat → BitVec 8) (datacount : BitVec 8) (fuel : Nat) (s : State) :
    s.sendData env data datacount (fuel+1) 0 = some (none,s) := by
  rw [sendData,if_neg]
  simp

/-- The state in which the command's own byte is written. -/
def opened (s : State) (cmd : BitVec 8) : State := { s with cmdResponse := 0x00, prevCommand := cmd, SendingCommand := true }

theorem sendCommand_eq (env : Environment) (fuel : Nat) (s : State) (cmd : BitVec 8) (data : Nat → BitVec 8) (datacount : BitVec 8) :
    s.SendCommand env (fuel+1) cmd data datacount = (((s.opened cmd).send env cmd).wait env (fuel+1)).map fun s =>
      (s.cmdResponse,{ s with SendingCommand := false }) := by
  rw [SendCommand]
  simp only [sendData_skipped,Option.bind_eq_bind,Option.bind_some]
  rw [← opened]
  cases ((s.opened cmd).send env cmd).wait env (fuel+1) <;> rfl

/-- Only the command itself is written, and the first answer is returned. -/
theorem sendCommand_result (idle : s.KBPort = []) (returned : s.SendCommand env fuel cmd data datacount = some (answer,s')) :
    answer = s.reply ∧ s'.written = s.written ++ [cmd] := by
  cases fuel with
  | zero => cases returned
  | succ fuel =>
    rw [sendCommand_eq] at returned
    obtain ⟨waited,wait,result⟩ := Option.map_eq_some_iff.mp returned
    cases result
    exact wait_answered (send_answered (s := s.opened cmd) idle rfl rfl cmd) (reply_expected _) wait

/-- Whatever the keyboard answers, the command returns. -/
theorem sendCommand_returns (fair : ∀ n, ∃ k, n ≤ k ∧ env.schedule k = true) (idle : s.KBPort = []) (cmd : BitVec 8)
    (data : Nat → BitVec 8) (datacount : BitVec 8) : ∃ fuel s', s.SendCommand env fuel cmd data datacount = some (s.reply,s') := by
  obtain ⟨fuel,waited,wait⟩ := wait_returns fair (send_answered (s := s.opened cmd) idle rfl rfl cmd) (reply_expected _)
  cases fuel with
  | zero => cases wait
  | succ fuel =>
    have returned := sendCommand_eq env fuel s cmd data datacount
    rw [wait] at returned
    have same := (sendCommand_result idle returned).1
    exact ⟨fuel+1,_,by rw [returned,Option.map_some,same]⟩

/-- The command alone is all that is wanted exactly when there is no data and the keyboard takes it at once. -/
theorem wanted_iff : s.wanted cmd data datacount = [cmd] ↔ datacount = 0 ∧ s.asks 0 = 0 := by
  constructor
  · intro single
    have length := congrArg List.length single
    rw [wanted,List.length_append,List.length_replicate,List.length_singleton] at length
    refine ⟨?_,by omega⟩
    by_contra some_data
    have first : 0 ∈ List.range datacount.toNat := by
      rw [List.mem_range]
      exact Nat.pos_of_ne_zero (fun zero => some_data (BitVec.eq_of_toNat_eq zero))
    have sent : data 0 ∈ (List.range datacount.toNat).flatMap fun i => List.replicate (s.asks (i+1) + 1) (data i) :=
      List.mem_flatMap.mpr ⟨0,first,by simp⟩
    have more := List.length_pos_of_mem sent
    omega
  · rintro ⟨rfl,once⟩
    simp [wanted,once]

/-- A command writes its byte and its data and returns `ACK` if and only if it has no data and the keyboard does not
    ask for it again. -/
theorem sendCommand_iff (fair : ∀ n, ∃ k, n ≤ k ∧ env.schedule k = true) (idle : s.KBPort = []) :
    Sends env s cmd data datacount ↔ datacount = 0 ∧ s.asks 0 = 0 := by
  constructor
  · rintro ⟨fuel,s',returned,written⟩
    have only := (sendCommand_result idle returned).2
    rw [written] at only
    exact wanted_iff.mp (List.append_cancel_left only)
  · rintro ⟨empty,once⟩
    obtain ⟨fuel,s',returned⟩ := sendCommand_returns fair idle cmd data datacount
    have only := (sendCommand_result idle returned).2
    have acknowledged : s.reply = Response.ACK := if_pos once
    rw [acknowledged] at returned
    exact ⟨fuel,s',returned,by rw [only,wanted_iff.mpr ⟨empty,once⟩]⟩

/-- An idle keyboard that takes every byte at once. -/
def idleKeyboard : State where
  resendCount := 0
  cmdResponse := 0
  prevCommand := 0
  SendingCommand := false
  KBPort := []
  last := 0
  asks := fun _ => 0
  written := []
  time := 0

/-- Every interrupt comes at once. -/
def prompt : Environment := ⟨fun _ => true,true⟩

theorem prompt_fair (n : Nat) : ∃ k, n ≤ k ∧ prompt.schedule k = true := ⟨n,Nat.le_refl n,rfl⟩

theorem sendCommand_iff_enable : Sends prompt idleKeyboard 0xF4 (fun _ => 0) 0 :=
  (sendCommand_iff prompt_fair rfl).mpr ⟨rfl,rfl⟩

/-- `SetLED` is sent without the byte that says which. -/
theorem sendCommand_unsent : idleKeyboard.KBPort = [] ∧ ¬ Sends prompt idleKeyboard 0xED (fun _ => 0x07) 1 := by
  refine ⟨rfl,?_⟩
  rintro ⟨fuel,s',returned,written⟩
  have only := (sendCommand_result rfl returned).2
  rw [written] at only
  exact absurd (List.append_cancel_left only) (by decide)

end State
end WaifuOS.Keyboard
