import WaifuOS.Typing
import Mathlib.Data.Nat.Bits

/-!
Keys that are typed (`KeyEvent` and what it calls in `Keyboard.cpp`), outside of commands to the keyboard. A scan
code with its top bit set is a key that is released. The tables have 0x59 characters and no
check stands before them, so that the keys from 0x59 on type whatever byte is behind a table;
it comes with the scan code here (`Stroke`). What is meant is a board with the keys that are
held, the lock of the capitals and a grid of text (`Board`), where the lock turns the case of
the letters and of nothing else. The globals and the frame buffer follow the board through
every stream of scan codes that raises no machine check (`run_follows`).
-/
namespace WaifuOS.Keyboard
open WaifuOS.Console WaifuOS.Console.PrimitiveConsole WaifuOS.TextGrid
open Function (update)

/-- The characters of a table; the constant of two characters keeps the second one. -/
def table (keys : List Char) : List (BitVec 8) := keys.map (fun chr => BitVec.ofNat 8 chr.toNat)

/-- The keypad, and what no key of it is. -/
def keypad : List Char :=
  ['\x00', ' ', '\x00', '\x00', '\x00', '\x00', '\x00', '\x00',
   '\x00', '\x00', '\x00', '\x00', '\x00', '\x00', '\x00', '7',
   '8', '9', '-', '4', '5', '6', '+', '1',
   '2', '3', '0', '.', '\x00', '\x00', '\x00', '\x00',
   '\x00']

def Key1Table : List (BitVec 8) := table
  (['\x00', '\x00', '1', '2', '3', '4', '5', '6',
    '7', '8', '9', '0', '-', '=', '\x08', '\t',
    'q', 'w', 'e', 'r', 't', 'y', 'u', 'i',
    'o', 'p', '\x5b', '\x5d', '\n', '\x00', 'a', 's',
    'd', 'f', 'g', 'h', 'j', 'k', 'l', ';',
    '\x27', '\x60', '\x00', '\x5c', 'z', 'x', 'c', 'v',
    'b', 'n', 'm', ',', '.', '/', '\x00', '*'] ++ keypad)

def ShiftKey1Table : List (BitVec 8) := table
  (['\x00', '\x00', '!', '@', '#', '$', '%', '^',
    '&', '*', '\x28', '\x29', '_', '+', '\x08', '\x00',
    'Q', 'W', 'E', 'R', 'T', 'Y', 'U', 'I',
    'O', 'P', '\x7b', '\x7d', '\n', '\x00', 'A', 'S',
    'D', 'F', 'G', 'H', 'J', 'K', 'L', ':',
    '\x22', '~', '\x00', '|', 'Z', 'X', 'C', 'V',
    'B', 'N', 'M', '<', '>', '?', '\x00', '*'] ++ keypad)

def CapsKey1Table : List (BitVec 8) := table
  (['\x00', '\x00', '1', '2', '3', '4', '5', '6',
    '7', '8', '9', '0', '-', '=', '\x08', '\t',
    'Q', 'W', 'E', 'R', 'T', 'Y', 'U', 'I',
    'O', 'P', '\x5b', '\x5d', '\n', '\x00', 'A', 'S',
    'D', 'F', 'G', 'H', 'J', 'K', 'L', ';',
    '\x27', '\x60', '\x00', '\x5c', 'Z', 'X', 'C', 'V',
    'B', 'N', 'M', ',', '.', '/', '\x00', '*'] ++ keypad)

def CapsShiftKey1Table : List (BitVec 8) := table
  (['\x00', '\x00', '!', '@', '#', '$', '%', '^',
    '&', '*', '\x28', '\x29', '_', '+', '\x08', '\x00',
    'q', 'w', 'e', 'r', 't', 'y', 'u', 'i',
    'o', 'p', '\x7b', '\x7d', '\n', '\x00', 'a', 's',
    'd', 'f', 'g', 'h', 'j', 'k', 'l', ':',
    '\x22', '~', '\x00', '|', 'z', 'x', 'c', 'v',
    'b', 'n', 'm', '<', '>', '?', '\x00', '*'] ++ keypad)

namespace PS2Key1

def Escape : BitVec 8 := 0x01
def Backspace : BitVec 8 := 0x0E
def LControl : BitVec 8 := 0x1D
def LShift : BitVec 8 := 0x2A
def RShift : BitVec 8 := 0x36
def LAlt : BitVec 8 := 0x38
def Capslock : BitVec 8 := 0x3A
def F12 : BitVec 8 := 0x58

end PS2Key1

/-- A scan code, and the byte that the load for it finds where it goes past its table. -/
structure Stroke where
  sc1 : BitVec 8
  behind : BitVec 8

/-- The globals, with the console. -/
structure Keys where
  LShift : Bool
  RShift : Bool
  LControl : Bool
  RControl : Bool
  LAlt : Bool
  RAlt : Bool
  CapsLock : Bool
  KeyState : Nat → Bool
  gConsole : PrimitiveConsole

namespace Keys

def GetKeyState (s : Keys) (Key : BitVec 8) : Bool := s.KeyState (Key &&& 0x7F).toNat

def SetKeyState (s : Keys) (Key : BitVec 8) (state : Bool) : Keys :=
  { s with KeyState := update s.KeyState (Key &&& 0x7F).toNat state }

/-- `gConsole.WriteChar(chr)`. -/
def WriteChar (s : Keys) (chr : BitVec 8) : Keys := { s with gConsole := s.gConsole.WriteChar chr s.gConsole.mForegroundColor }

def KeyUpEvent (s : Keys) (sc : BitVec 8) : Keys :=
  let s := s.SetKeyState sc false
  if sc = PS2Key1.LShift then { s with LShift := false }
  else if sc = PS2Key1.RShift then { s with RShift := false }
  else if sc = PS2Key1.LControl then { s with LControl := false }
  else if sc = PS2Key1.LAlt then { s with LAlt := false }
  else s

/-- The table for `SHIFT` and `CapsLock`. -/
def tableFor (SHIFT CapsLock : Bool) : List (BitVec 8) :=
  if SHIFT && !CapsLock then ShiftKey1Table
  else if CapsLock && !SHIFT then CapsKey1Table
  else if CapsLock && SHIFT then CapsShiftKey1Table
  else Key1Table

/-- There is no result where `F12` raises a machine check, whose handler halts. -/
def KeyDownEvent (s : Keys) (sc behind : BitVec 8) : Option Keys :=
  let s := s.SetKeyState sc true
  if sc = PS2Key1.LShift then some { s with LShift := true }
  else if sc = PS2Key1.RShift then some { s with RShift := true }
  else if sc = PS2Key1.LControl then some { s with LControl := true }
  else if sc = PS2Key1.LAlt then some { s with LAlt := true }
  else if sc = PS2Key1.Capslock then some { s with CapsLock := !s.CapsLock }
  else if sc = PS2Key1.Backspace then some (((s.WriteChar 8).WriteChar 32).WriteChar 8)
  else if sc = PS2Key1.Escape then some { s with gConsole := s.gConsole.Clear s.gConsole.mBackgroundColor }
  else if sc = PS2Key1.F12 then none
  else if !(s.LControl || s.RControl) && !(s.LAlt || s.RAlt) then
    some (s.WriteChar ((tableFor (s.LShift || s.RShift) s.CapsLock)[sc.toNat]?.getD behind))
  else some s

/-- `KeyEvent` outside of a command; the top bit of a scan code means that the key is released. -/
def KeyEvent (s : Keys) (k : Stroke) : Option Keys :=
  if k.sc1 &&& 0x80 ≠ 0 then some (s.KeyUpEvent (k.sc1 &&& 0x7F)) else s.KeyDownEvent k.sc1 k.behind

/-- The events of a stream of scan codes. -/
def run (s : Keys) : List Stroke → Option Keys
  | [] => some s
  | k :: ks => do run (← s.KeyEvent k) ks

end Keys

/-- The keys that are held, the lock of the capitals, and the text. -/
structure Board (width height : Nat) where
  held : Nat → Bool
  caps : Bool
  text : Grid (BitVec 8) width height

/-- A key that has a small letter. -/
def letter (key : Nat) : Bool :=
  match Key1Table[key]? with
  | some chr => 97 ≤ chr.toNat && chr.toNat ≤ 122
  | none => false

/-- The character of a key: the lock turns the case of a letter. -/
def character (shift caps : Bool) (key : Nat) : Option (BitVec 8) :=
  if (if letter key then shift ^^ caps else shift) then ShiftKey1Table[key]? else Key1Table[key]?

namespace Board
variable {width height : Nat}

def shift (b : Board width height) : Bool := b.held 0x2A || b.held 0x36

/-- A key that is held keeps other keys from being typed. -/
def silent (b : Board width height) : Bool := b.held 0x1D || b.held 0x38

/-- The text with a character, if it is one. -/
def typed (b : Board width height) (chr : BitVec 8) : Board width height :=
  { b with text := if chr = 0 then b.text else type b.text chr }

/-- A key that is pressed; one without a character types the byte behind the table. -/
def press (b : Board width height) (key : Nat) (behind : BitVec 8) : Board width height :=
  let b := { b with held := update b.held key true }
  if key = 0x2A ∨ key = 0x36 ∨ key = 0x1D ∨ key = 0x38 then b
  else if key = 0x3A then { b with caps := !b.caps }
  else if key = 0x0E then ((b.typed 8).typed 32).typed 8
  else if key = 0x01 then
    { b with text := Grid.empty (Nat.zero_lt_of_lt b.text.column) (Nat.zero_lt_of_lt b.text.row) }
  else if b.silent then b
  else b.typed ((character b.shift b.caps key).getD behind)

def step (b : Board width height) (k : Stroke) : Board width height :=
  if k.sc1.toNat < 0x80 then b.press k.sc1.toNat k.behind else { b with held := update b.held (k.sc1.toNat - 0x80) false }

end Board

/-- The globals are those of the board, and the frame buffer shows its text. -/
structure Follows {width height : Nat} (s : Keys) (b : Board width height) : Prop where
  KeyState : s.KeyState = b.held
  LShift : s.LShift = b.held 0x2A
  RShift : s.RShift = b.held 0x36
  LControl : s.LControl = b.held 0x1D
  RControl : s.RControl = false
  LAlt : s.LAlt = b.held 0x38
  RAlt : s.RAlt = false
  CapsLock : s.CapsLock = b.caps
  fits : Fits s.gConsole width height
  shows : Shows s.gConsole.mForegroundColor s.gConsole b.text

variable {width height : Nat} {s s' : Keys} {b : Board width height} {sc behind : BitVec 8} {k : Stroke} {ks : List Stroke} {key : Nat}

theorem table_length (SHIFT CapsLock : Bool) : (Keys.tableFor SHIFT CapsLock).length = 0x59 := by
  cases SHIFT <;> cases CapsLock <;> decide

/-- The four tables are two of them and the lock. -/
theorem tableFor_eq (SHIFT CapsLock : Bool) (key : Nat) : (Keys.tableFor SHIFT CapsLock)[key]? = character SHIFT CapsLock key := by
  have inside : ∀ key < 0x59, ∀ SHIFT CapsLock : Bool, (Keys.tableFor SHIFT CapsLock)[key]? = character SHIFT CapsLock key := by
    decide +kernel
  by_cases small : key < 0x59
  · exact inside key small SHIFT CapsLock
  · have outside : ∀ SHIFT CapsLock : Bool, (Keys.tableFor SHIFT CapsLock)[key]? = none := fun SHIFT CapsLock =>
      List.getElem?_eq_none (by rw [table_length]; omega)
    have key1 : Key1Table[key]? = none := outside false false
    have shifted : ShiftKey1Table[key]? = none := outside true false
    rw [outside,character,key1,shifted,ite_self]

/-- A character is typed. -/
theorem Follows.writeChar (follows : Follows s b) (chr : BitVec 8) : Follows (s.WriteChar chr) (b.typed chr) := by
  have same := writeChar_same follows.fits follows.shows chr
  refine ⟨follows.1,follows.2,follows.3,follows.4,follows.5,follows.6,follows.7,follows.8,follows.fits.same same,?_⟩
  show Shows (s.gConsole.WriteChar chr s.gConsole.mForegroundColor).mForegroundColor _ _
  rw [same.mForegroundColor]
  simp only [Board.typed]
  by_cases none : chr = 0
  · subst none
    exact follows.shows
  · simp only [if_neg none]
    exact writeChar_shows follows.fits follows.shows none

theorem Follows.clear (follows : Follows s b) : Follows { s with gConsole := s.gConsole.Clear s.gConsole.mBackgroundColor }
    { b with text := Grid.empty (Nat.zero_lt_of_lt b.text.column) (Nat.zero_lt_of_lt b.text.row) } where
  KeyState := follows.KeyState
  LShift := follows.LShift
  RShift := follows.RShift
  LControl := follows.LControl
  RControl := follows.RControl
  LAlt := follows.LAlt
  RAlt := follows.RAlt
  CapsLock := follows.CapsLock
  fits := follows.fits.same ⟨rfl,rfl,rfl,rfl,rfl,rfl⟩
  shows := ⟨follows.shows.disabled,rfl,clear_renders s.gConsole⟩

theorem masked (low : sc.toNat < 0x80) : (sc &&& 0x7F).toNat = sc.toNat := by
  rw [BitVec.toNat_and]
  exact (Nat.and_two_pow_sub_one_eq_mod sc.toNat 7).trans (Nat.mod_eq_of_lt low)

/-- A key is held or not from now on, and the globals of the keys that change the others with it. -/
def Keys.hold (s : Keys) (sc : BitVec 8) (state : Bool) : Keys :=
  { s with
    KeyState := update s.KeyState sc.toNat state
    LShift := if sc = PS2Key1.LShift then state else s.LShift
    RShift := if sc = PS2Key1.RShift then state else s.RShift
    LControl := if sc = PS2Key1.LControl then state else s.LControl
    LAlt := if sc = PS2Key1.LAlt then state else s.LAlt }

def Board.hold (b : Board width height) (key : Nat) (state : Bool) : Board width height := { b with held := update b.held key state }

theorem hold_field {held : Nat → Bool} {state : Bool} (k : BitVec 8) :
    (if sc = k then state else held k.toNat) = update held sc.toNat state k.toNat := by
  by_cases same : sc = k
  · rw [if_pos same,same,Function.update_self]
  · rw [if_neg same,Function.update_of_ne (fun equal => same (BitVec.eq_of_toNat_eq equal.symm))]

theorem Follows.hold (follows : Follows s b) (sc : BitVec 8) (state : Bool) : Follows (s.hold sc state) (b.hold sc.toNat state) where
  KeyState := by
    show update s.KeyState _ _ = update b.held _ _
    rw [follows.KeyState]
  LShift := by
    show (if sc = PS2Key1.LShift then state else s.LShift) = _
    rw [follows.LShift]
    exact hold_field PS2Key1.LShift
  RShift := by
    show (if sc = PS2Key1.RShift then state else s.RShift) = _
    rw [follows.RShift]
    exact hold_field PS2Key1.RShift
  LControl := by
    show (if sc = PS2Key1.LControl then state else s.LControl) = _
    rw [follows.LControl]
    exact hold_field PS2Key1.LControl
  RControl := follows.RControl
  LAlt := by
    show (if sc = PS2Key1.LAlt then state else s.LAlt) = _
    rw [follows.LAlt]
    exact hold_field PS2Key1.LAlt
  RAlt := follows.RAlt
  CapsLock := follows.CapsLock
  fits := follows.fits
  shows := follows.shows

theorem keyUp_eq (s : Keys) (low : sc.toNat < 0x80) : s.KeyUpEvent sc = s.hold sc false := by
  unfold Keys.KeyUpEvent Keys.SetKeyState Keys.hold
  rw [masked low]
  dsimp only
  by_cases lShift : sc = PS2Key1.LShift
  · subst lShift
    rfl
  by_cases rShift : sc = PS2Key1.RShift
  · subst rShift
    rfl
  by_cases lControl : sc = PS2Key1.LControl
  · subst lControl
    rfl
  by_cases lAlt : sc = PS2Key1.LAlt
  · subst lAlt
    rfl
  simp only [if_neg lShift,if_neg rShift,if_neg lControl,if_neg lAlt]

theorem toNat_ne {k : BitVec 8} (other : sc ≠ k) : sc.toNat ≠ k.toNat := fun same => other (BitVec.eq_of_toNat_eq same)

/-- Another key changes no modifier. -/
theorem hold_plain (s : Keys) (low : sc.toNat < 0x80) (lShift : sc ≠ PS2Key1.LShift) (rShift : sc ≠ PS2Key1.RShift)
    (lControl : sc ≠ PS2Key1.LControl) (lAlt : sc ≠ PS2Key1.LAlt) : s.SetKeyState sc true = s.hold sc true := by
  simp only [Keys.SetKeyState,Keys.hold]
  rw [masked low,if_neg lShift,if_neg rShift,if_neg lControl,if_neg lAlt]

/-- A key that is typed, after it is held. -/
theorem typed_follows (follows : Follows s b) (key : Nat) (behind : BitVec 8) :
    Follows (s.WriteChar ((Keys.tableFor (s.LShift || s.RShift) s.CapsLock)[key]?.getD behind))
      (b.typed ((character b.shift b.caps key).getD behind)) := by
  have shift : (s.LShift || s.RShift) = b.shift := by
    rw [follows.LShift,follows.RShift]
    rfl
  rw [shift,follows.CapsLock,tableFor_eq]
  exact follows.writeChar _

/-- A key that is pressed does what it means, or halts. -/
theorem keyDown_follows (follows : Follows s b) (low : sc.toNat < 0x80) (behind : BitVec 8) :
    if sc = PS2Key1.F12 then s.KeyDownEvent sc behind = none
    else ∃ s', s.KeyDownEvent sc behind = some s' ∧ Follows s' (b.press sc.toNat behind) := by
  have held := follows.hold sc true
  by_cases lShift : sc = PS2Key1.LShift
  · subst lShift
    exact ⟨_,rfl,held⟩
  by_cases rShift : sc = PS2Key1.RShift
  · subst rShift
    exact ⟨_,rfl,held⟩
  by_cases lControl : sc = PS2Key1.LControl
  · subst lControl
    exact ⟨_,rfl,held⟩
  by_cases lAlt : sc = PS2Key1.LAlt
  · subst lAlt
    exact ⟨_,rfl,held⟩
  obtain ⟨t,tIs⟩ : ∃ t, t = s.hold sc true := ⟨_,rfl⟩
  obtain ⟨b',bIs⟩ : ∃ b', b' = b.hold sc.toNat true := ⟨_,rfl⟩
  rw [← tIs,← bIs] at held
  have pressed : b.press sc.toNat behind = if sc.toNat = 0x3A then { b' with caps := !b'.caps }
      else if sc.toNat = 0x0E then ((b'.typed 8).typed 32).typed 8
      else if sc.toNat = 0x01 then { b' with text := Grid.empty (Nat.zero_lt_of_lt b'.text.column) (Nat.zero_lt_of_lt b'.text.row) }
      else if b'.silent then b'
      else b'.typed ((character b'.shift b'.caps sc.toNat).getD behind) := by
    have other : ¬ (sc.toNat = 0x2A ∨ sc.toNat = 0x36 ∨ sc.toNat = 0x1D ∨ sc.toNat = 0x38) := by
      rintro (same | same | same | same)
      · exact toNat_ne lShift same
      · exact toNat_ne rShift same
      · exact toNat_ne lControl same
      · exact toNat_ne lAlt same
    rw [bIs]
    exact if_neg other
  simp only [Keys.KeyDownEvent]
  rw [hold_plain s low lShift rShift lControl lAlt,← tIs,pressed]
  simp only [if_neg lShift,if_neg rShift,if_neg lControl,if_neg lAlt]
  by_cases f12 : sc = PS2Key1.F12
  · subst f12
    rfl
  rw [if_neg f12]
  by_cases capslock : sc = PS2Key1.Capslock
  · subst capslock
    refine ⟨_,rfl,⟨held.1,held.2,held.3,held.4,held.5,held.6,held.7,?_,held.9,held.10⟩⟩
    show (!t.CapsLock) = !b'.caps
    rw [held.CapsLock]
  by_cases backspace : sc = PS2Key1.Backspace
  · subst backspace
    exact ⟨_,rfl,((held.writeChar 8).writeChar 32).writeChar 8⟩
  by_cases escape : sc = PS2Key1.Escape
  · subst escape
    exact ⟨_,rfl,held.clear⟩
  have free : (!(t.LControl || t.RControl) && !(t.LAlt || t.RAlt)) = !b'.silent := by
    rw [held.LControl,held.RControl,held.LAlt,held.RAlt,Bool.or_false,Bool.or_false,← Bool.not_or]
    rfl
  have notCapslock : ¬ sc.toNat = 0x3A := toNat_ne capslock
  have notBackspace : ¬ sc.toNat = 0x0E := toNat_ne backspace
  have notEscape : ¬ sc.toNat = 0x01 := toNat_ne escape
  rw [if_neg capslock,if_neg backspace,if_neg escape,if_neg f12,if_neg notCapslock,if_neg notBackspace,if_neg notEscape,free]
  cases b'.silent with
  | true => exact ⟨t,rfl,held⟩
  | false => exact ⟨_,rfl,typed_follows held _ behind⟩

/-- So does every event. -/
theorem keyEvent_follows (follows : Follows s b) (k : Stroke) :
    if k.sc1 = PS2Key1.F12 then s.KeyEvent k = none else ∃ s', s.KeyEvent k = some s' ∧ Follows s' (b.step k) := by
  have top : k.sc1 &&& 0x80 ≠ 0 ↔ ¬ k.sc1.toNat < 0x80 := by
    have all : ∀ sc : BitVec 8, sc &&& 0x80 ≠ 0 ↔ ¬ sc.toNat < 0x80 := by decide +kernel
    exact all k.sc1
  simp only [Keys.KeyEvent,Board.step]
  by_cases low : k.sc1.toNat < 0x80
  · rw [if_neg (fun set => top.mp set low),if_pos low]
    exact keyDown_follows follows low k.behind
  · have key : (k.sc1 &&& 0x7F).toNat = k.sc1.toNat - 0x80 := by
      have bound := k.sc1.isLt
      rw [BitVec.toNat_and]
      apply (Nat.and_two_pow_sub_one_eq_mod k.sc1.toNat 7).trans
      omega
    have other : k.sc1 ≠ PS2Key1.F12 := fun same => low (by rw [same]; decide)
    rw [if_pos (top.mpr low),if_neg low,keyUp_eq s (by rw [key]; omega),← key,if_neg other]
    exact ⟨_,rfl,follows.hold _ false⟩

theorem run_cons (s : Keys) (k : Stroke) (ks : List Stroke) : s.run (k :: ks) = s.KeyEvent k >>= fun s => s.run ks := rfl

/-- A stream returns when `F12` is not in it, and what it leaves follows the board. -/
theorem follows_run (follows : Follows s b) (ks : List Stroke) :
    ((∃ s', s.run ks = some s') ↔ PS2Key1.F12 ∉ ks.map Stroke.sc1) ∧ ∀ s', s.run ks = some s' → Follows s' (ks.foldl Board.step b) := by
  induction ks generalizing s b with
  | nil =>
    refine ⟨⟨fun _ => List.not_mem_nil,fun _ => ⟨s,rfl⟩⟩,?_⟩
    intro s' runs
    obtain rfl : s = s' := Option.some.inj runs
    exact follows
  | cons k ks ih =>
    have event := keyEvent_follows follows k
    rw [run_cons,List.foldl_cons,List.map_cons,List.mem_cons,not_or]
    by_cases f12 : k.sc1 = PS2Key1.F12
    · rw [if_pos f12] at event
      rw [event]
      refine ⟨⟨fun ⟨_,runs⟩ => ?_,fun absent => absurd f12.symm absent.1⟩,fun s' runs => ?_⟩
      · cases runs
      · cases runs
    · rw [if_neg f12] at event
      obtain ⟨t,event,next⟩ := event
      rw [event]
      obtain ⟨returns,then_follows⟩ := ih next
      exact ⟨returns.trans ⟨fun absent => ⟨Ne.symm f12,absent⟩,And.right⟩,then_follows⟩

/-- A scan code of the key, pressed or released. -/
def about (key : Nat) (sc : BitVec 8) : Bool := sc.toNat % 0x80 = key

/-- What the last scan code of a key says. -/
def lastEvent (key : Nat) (scs : List (BitVec 8)) (held : Bool) : Bool :=
  ((scs.filter (about key)).map (fun sc => decide (sc.toNat < 0x80))).getLast?.getD held

theorem lastEvent_cons (key : Nat) (sc : BitVec 8) (scs : List (BitVec 8)) (held : Bool) :
    lastEvent key (sc :: scs) held = lastEvent key scs (if about key sc then sc.toNat < 0x80 else held) := by
  simp only [lastEvent]
  cases mine : about key sc with
  | true =>
    rw [List.filter_cons_of_pos mine,List.map_cons,List.getLast?_cons,if_pos rfl]
    rfl
  | false =>
    rw [List.filter_cons_of_neg (by rw [mine]; exact Bool.false_ne_true)]
    rfl

theorem press_held (b : Board width height) (key : Nat) : (b.press key behind).held = update b.held key true := by
  simp only [Board.press]
  simp only [apply_ite Board.held,Board.typed,ite_self]

theorem press_caps (b : Board width height) (key : Nat) : (b.press key behind).caps = if key = 0x3A then !b.caps else b.caps := by
  simp only [Board.press]
  by_cases capslock : key = 0x3A
  · subst capslock
    rfl
  · simp only [apply_ite Board.caps,Board.typed,if_neg capslock,ite_self]

theorem step_held (b : Board width height) (k : Stroke) (key : Nat) :
    (b.step k).held key = if about key k.sc1 then decide (k.sc1.toNat < 0x80) else b.held key := by
  have bound := k.sc1.isLt
  have same : (about key k.sc1 = true) ↔ key = if k.sc1.toNat < 0x80 then k.sc1.toNat else k.sc1.toNat - 0x80 := by
    rw [about,decide_eq_true_iff]
    split <;> omega
  simp only [Board.step]
  by_cases low : k.sc1.toNat < 0x80
  · rw [if_pos low] at same
    rw [if_pos low,press_held,Function.update_apply,decide_eq_true low]
    exact if_congr same.symm rfl rfl
  · rw [if_neg low] at same
    have released : update b.held (k.sc1.toNat - 0x80) false key = if key = k.sc1.toNat - 0x80 then false else b.held key :=
      Function.update_apply ..
    rw [if_neg low,decide_eq_false low]
    exact released.trans (if_congr same.symm rfl rfl)

theorem step_caps (b : Board width height) (k : Stroke) : (b.step k).caps = if k.sc1 = PS2Key1.Capslock then !b.caps else b.caps := by
  simp only [Board.step]
  by_cases capslock : k.sc1 = PS2Key1.Capslock
  · rw [if_pos (by rw [capslock]; decide),press_caps,if_pos (by rw [capslock]; rfl),if_pos capslock]
  · have other : ¬ k.sc1.toNat = 0x3A := toNat_ne capslock
    rw [if_neg capslock,apply_ite Board.caps,press_caps,if_neg other,ite_self]

/-- A key is held when its last scan code was a press. -/
theorem foldl_held (b : Board width height) (ks : List Stroke) (key : Nat) :
    (ks.foldl Board.step b).held key = lastEvent key (ks.map Stroke.sc1) (b.held key) := by
  induction ks generalizing b with
  | nil => rfl
  | cons k ks ih => rw [List.foldl_cons,ih,List.map_cons,lastEvent_cons,step_held]

/-- Presses of the lock turn it, and nothing else does. -/
theorem foldl_caps (b : Board width height) (ks : List Stroke) :
    (ks.foldl Board.step b).caps = (b.caps ^^ ((ks.map Stroke.sc1).count PS2Key1.Capslock).bodd) := by
  induction ks generalizing b with
  | nil => exact (Bool.xor_false b.caps).symm
  | cons k ks ih =>
    rw [List.foldl_cons,ih,step_caps,List.map_cons]
    by_cases capslock : k.sc1 = PS2Key1.Capslock
    · rw [if_pos capslock,capslock,List.count_cons_self,Nat.bodd_succ,Bool.not_xor,Bool.xor_not]
    · rw [if_neg capslock,List.count_cons_of_ne capslock]

/-- The globals as they start, with a cleared console. -/
def Keys.start (c : PrimitiveConsole) : Keys :=
  ⟨false,false,false,false,false,false,false,fun _ => false,c.Clear c.mBackgroundColor⟩

/-- No key is held, and nothing is typed. -/
def Board.start (columns : 0 < width) (rows : 0 < height) : Board width height := ⟨fun _ => false,false,Grid.empty columns rows⟩

theorem start_follows {c : PrimitiveConsole} (fits : Fits c width height) (columns : 0 < width) (rows : 0 < height)
    (disabled : c.CursorEnabled = false) : Follows (Keys.start c) (Board.start columns rows) :=
  ⟨rfl,rfl,rfl,rfl,rfl,rfl,rfl,rfl,fits.same ⟨rfl,rfl,rfl,rfl,rfl,rfl⟩,⟨disabled,rfl,clear_renders c⟩⟩

/-- The lock is pressed and released, then a letter under a held shift, and a key behind the tables. -/
def someStrokes : List Stroke := [⟨0x3A,0⟩,⟨0xBA,0⟩,⟨0x2A,0⟩,⟨0x1E,0⟩,⟨0x60,0x41⟩]

end WaifuOS.Keyboard
