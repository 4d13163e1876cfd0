import WaifuOS.Directories

/-!
How `GetEntryInfo` walks along a path. A separator at each end of the path is dropped, and
what is left is cut at the first slash, or where there is none at the first backslash; each
part is looked up in the directory found so far. The path means the walk along its
runs of other characters (`runs`, `walk`). `getEntryInfo_iff` says when the names that are
looked up are these: when each part is one run, so that separators do not follow each other
and no slash comes behind a backslash (`Plain`).
-/
namespace WaifuOS.FAT32
open WaifuOS.AHCI WaifuOS.Bytes WaifuOS.cstr

variable {σ : Type}

/-- A lookup of a name in a directory: the status, the entry and the state of the drive. A name
    `none` is `nullptr`, and there is no result when the call does not return. -/
abbrev Lookup (σ : Type) := σ → Option WString → EntryInfo → Option (Status × EntryInfo × σ)

/-- The names that were handed to lookups, and the status, the entry and the state in the end. -/
structure Resolution (σ : Type) where
  handed : List (Option WString)
  result : Option (Status × EntryInfo × σ)

/-- A resolution after one more name. -/
def Resolution.after (name : Option WString) (r : Resolution σ) : Resolution σ := ⟨name :: r.handed,r.result⟩

/-- `'/'` and `'\\'`. -/
def slash : Nat := 0x2F

def backslash : Nat := 0x5C

def isSeparator (c : Nat) : Bool := c = slash || c = backslash

/-- Where the loop of `GetEntryInfo` cuts the path. -/
def indexOfSlash (currentPath : WString) : Option Nat :=
  match wstrIndexOf currentPath slash with
  | some index => some index
  | none => wstrIndexOf currentPath backslash

theorem indexOfSlash_none {text : WString} : indexOfSlash text = none ↔ ∀ c ∈ text, isSeparator c = false := by
  have parts : indexOfSlash text = none ↔ slash ∉ text ∧ backslash ∉ text := by
    cases first : wstrIndexOf text slash with
    | some index =>
      have there : ¬ slash ∉ text := fun none => by
        rw [wstrIndexOf_none.mpr none] at first
        cases first
      simp [indexOfSlash,first,there]
    | none => simp [indexOfSlash,first,wstrIndexOf_none.mp first,wstrIndexOf_none]
  rw [parts]
  constructor
  · rintro ⟨noSlash,noBackslash⟩ c member
    have first : c ≠ slash := fun same => noSlash (same ▸ member)
    have second : c ≠ backslash := fun same => noBackslash (same ▸ member)
    simp [isSeparator,first,second]
  · intro none
    exact ⟨fun member => by simpa [isSeparator] using none _ member,fun member => by simpa [isSeparator] using none _ member⟩

/-- A separator that ends a part: a backslash only where no slash follows. -/
def Cuts (c : Nat) (rest : WString) : Prop := c = slash ∨ (c = backslash ∧ slash ∉ rest)

theorem Cuts.separator {c : Nat} {rest : WString} (cuts : Cuts c rest) : isSeparator c = true := by
  rcases cuts with rfl | ⟨rfl,_⟩ <;> rfl

/-- The path is cut at a separator. -/
theorem indexOfSlash_some {text : WString} {index : Nat} (found : indexOfSlash text = some index) :
    ∃ name c rest, text = name ++ c :: rest ∧ name.length = index ∧ Cuts c rest := by
  simp only [indexOfSlash] at found
  split at found
  · next index' first =>
    cases found
    obtain ⟨name,rest,whole,size,_⟩ := wstrIndexOf_some.mp first
    exact ⟨name,slash,rest,whole,size,.inl rfl⟩
  · next none =>
    obtain ⟨name,rest,rfl,size,_⟩ := wstrIndexOf_some.mp found
    have noSlash := wstrIndexOf_none.mp none
    exact ⟨name,backslash,rest,rfl,size,.inr ⟨rfl,fun member => noSlash (by simp [member])⟩⟩

/-- Where the first part has no separators the path is cut behind it. -/
theorem indexOfSlash_part {name rest : WString} {c : Nat} (whole : ∀ x ∈ name, isSeparator x = false) (cuts : Cuts c rest) :
    indexOfSlash (name ++ c :: rest) = some name.length := by
  have noSlash : slash ∉ name := fun member => by simpa [isSeparator] using whole _ member
  have noBackslash : backslash ∉ name := fun member => by simpa [isSeparator] using whole _ member
  simp only [indexOfSlash]
  rcases cuts with rfl | ⟨rfl,later⟩
  · rw [wstrIndexOf_some.mpr ⟨name,rest,rfl,rfl,noSlash⟩]
  · have none : wstrIndexOf (name ++ backslash :: rest) slash = none := by
      have differ : slash ≠ backslash := by decide
      rw [wstrIndexOf_none]
      simp [noSlash,later,differ]
    rw [none]
    exact wstrIndexOf_some.mpr ⟨name,rest,rfl,rfl,noBackslash⟩

namespace FSDriver

/-- The loop of `GetEntryInfo`. -/
def resolve (find : Lookup σ) (info : EntryInfo) (s : σ) (currentEntry : EntryInfo) (currentPath : WString) : Resolution σ :=
  match _cut : indexOfSlash currentPath with
  | none => ⟨[some currentPath],find s (some currentPath) currentEntry⟩
  | some index =>
    let ffname := wsubstring currentPath 0 index
    match find s ffname currentEntry with
    | none => ⟨[ffname],none⟩
    | some (stat,currentEntry,s) =>
      if stat ≠ .Ok then ⟨[ffname],some (stat,info,s)⟩
      else (resolve find info s currentEntry (currentPath.drop (index+1))).after ffname
termination_by currentPath.length
decreasing_by
  obtain ⟨name,c,rest,whole,size,_⟩ := indexOfSlash_some _cut
  rw [List.length_drop,whole,List.length_append,List.length_cons]
  omega

/-- The entry of the root directory; `blank` is what the other fields hold. -/
def rootEntry (d : FSDriver) (blank : EntryInfo) : EntryInfo :=
  { blank with
    EntryFirstClusterLow := d.mBootRecord.RootClusterStart % 2^16
    EntryFirstClusterHigh := d.mBootRecord.RootClusterStart / 2^16 % 2^16
    EntryAttributes := EntryAttribute.Directory
    DriveID := d.mDriveID % 2^8 }

/-- `GetEntryInfo`; `info` is what the caller's object holds. -/
def GetEntryInfo (d : FSDriver) (find : Lookup σ) (blank info : EntryInfo) (s : σ) (path : WString) : Resolution σ :=
  let path := if isSeparator (path.headD 0) then path.tail else path
  let wlen := path.length
  if wlen = 0 then ⟨[],some (.BadPath,info,s)⟩
  else
    let wlen := if isSeparator (path.getD (wlen-1) 0) then wlen-1 else wlen
    if wlen = 0 then ⟨[],some (.BadPath,info,s)⟩
    else
      -- A range that is not empty is never `nullptr`.
      let cleanedPath := (wsubstring path 0 wlen).getD []
      resolve find info s (d.rootEntry blank) (wstrToLower cleanedPath)

/-- `FindEntry(name,current,&current)`; `nullName` is what is read at `nullptr`. -/
def lookup (d : FSDriver) (device : Device) (behind : Nat → List Nat) (clusterBuffer fuel : Nat) (nullName : WString) : Lookup (ATAPort × Mem) :=
  fun s name current => (d.FindEntry device behind clusterBuffer fuel s.1 s.2 (name.getD nullName) current (some current)).map
    (fun answer => (answer.status,answer.out,answer.port,answer.memory))

end FSDriver

/-- The longest runs of characters that are not separators. -/
def runs (path : WString) : List WString := (path.splitOnP isSeparator).filter (· ≠ [])

/-- The walk along names, up to the first that is not found. -/
def walk (find : Lookup σ) (s : σ) (current : EntryInfo) : List WString → Resolution σ
  | [] => ⟨[],some (.Ok,current,s)⟩
  | name :: names =>
    match find s (some name) current with
    | none => ⟨[some name],none⟩
    | some (status,current,s) =>
      if status ≠ .Ok then ⟨[some name],some (status,current,s)⟩
      else (walk find s current names).after (some name)

/-- The path is resolved as the walk along its runs in lower case: the names that are looked up are
    these, none of them is null or empty, and where there are any, the status and the state
    are those of the walk, and the entry if it is found. -/
structure Resolves (d : FSDriver) (find : Lookup σ) (blank info : EntryInfo) (s : σ) (path : WString) : Prop where
  handed : (d.GetEntryInfo find blank info s path).handed = (walk find s (d.rootEntry blank) ((runs path).map wstrToLower)).handed
  named : ∀ name ∈ (d.GetEntryInfo find blank info s path).handed, ∃ chars, name = some chars ∧ chars ≠ []
  result : runs path ≠ [] → ∀ status entry s', (walk find s (d.rootEntry blank) ((runs path).map wstrToLower)).result = some (status,entry,s') →
    ∃ info', (d.GetEntryInfo find blank info s path).result = some (status,info',s') ∧ (status = .Ok → info' = entry)

/-- The path without a separator at its front. -/
def trimFront (path : WString) : WString := if isSeparator (path.headD 0) then path.tail else path

/-- The path without a separator at its end. -/
def trimBack (path : WString) : WString :=
  if isSeparator (path.getD (path.length-1) 0) then path.take (path.length-1) else path

/-- The path without a separator at its front and at its end. -/
def trim (path : WString) : WString := trimBack (trimFront path)

/-- Read from the left up to the first part that is not found, each part has characters and
    none of them is a separator. -/
inductive Plain (find : Lookup σ) : σ → EntryInfo → WString → Prop
  | last {s : σ} {current : EntryInfo} {name : WString} (chars : name ≠ []) (whole : ∀ c ∈ name, isSeparator c = false) :
      Plain find s current name
  | fails {s : σ} {current : EntryInfo} {name rest : WString} {c : Nat} (chars : name ≠ []) (whole : ∀ c ∈ name, isSeparator c = false)
      (cuts : Cuts c rest) (missing : ∀ current' s', find s (some name) current ≠ some (.Ok,current',s')) :
      Plain find s current (name ++ c :: rest)
  | next {s s' : σ} {current current' : EntryInfo} {name rest : WString} {c : Nat} (chars : name ≠ [])
      (whole : ∀ c ∈ name, isSeparator c = false) (cuts : Cuts c rest) (found : find s (some name) current = some (.Ok,current',s'))
      (later : Plain find s' current' rest) : Plain find s current (name ++ c :: rest)

variable {find : Lookup σ} {info current : EntryInfo} {s : σ} {text name rest : WString} {c : Nat}

theorem runs_part (chars : name ≠ []) (whole : ∀ x ∈ name, isSeparator x = false) : runs name = [name] := by
  rw [runs,List.splitOnP_eq_singleton whole]
  simp [chars]

theorem runs_cons (chars : name ≠ []) (whole : ∀ x ∈ name, isSeparator x = false) (separator : isSeparator c = true) :
    runs (name ++ c :: rest) = name :: runs rest := by
  rw [runs,List.splitOnP_append_cons_of_forall_mem whole c separator rest]
  simp [chars,runs]

/-- A separator in front or at the end adds no run. -/
theorem runs_front (separator : isSeparator c = true) : runs (c :: rest) = runs rest := by
  rw [runs,List.splitOnP_cons_eq_if_modifyHead,if_pos separator]
  simp [runs]

theorem runs_back (separator : isSeparator c = true) : runs (text ++ [c]) = runs text := by
  rw [runs,List.splitOnP_append_cons text [] separator]
  simp [runs]

theorem runs_named {run : WString} (member : run ∈ runs text) : run ≠ [] := by
  have kept := (List.mem_filter.mp member).2
  simpa using kept

/-- A run has no separators. -/
theorem runs_whole {run : WString} (member : run ∈ runs text) : ∀ x ∈ run, isSeparator x = false := by
  have parts : ∀ part ∈ text.splitOnP isSeparator, ∀ x ∈ part, isSeparator x = false := by
    clear member
    induction text with
    | nil => simp
    | cons c text ih =>
      rw [List.splitOnP_cons_eq_if_modifyHead]
      by_cases separator : isSeparator c = true
      · rw [if_pos separator]
        exact List.forall_mem_cons.mpr ⟨by simp,ih⟩
      · rw [if_neg separator]
        obtain ⟨part,more,split⟩ := List.exists_cons_of_ne_nil (List.splitOnP_ne_nil isSeparator text)
        rw [split] at ih ⊢
        obtain ⟨first,later⟩ := List.forall_mem_cons.mp ih
        rw [List.modifyHead_cons]
        exact List.forall_mem_cons.mpr ⟨List.forall_mem_cons.mpr ⟨by simpa using separator,first⟩,later⟩
  exact parts run (List.mem_filter.mp member).1

theorem runs_trimFront (path : WString) : runs (trimFront path) = runs path := by
  simp only [trimFront]
  split
  · next separator =>
    cases path with
    | nil => rfl
    | cons c rest => exact (runs_front separator).symm
  · rfl

theorem runs_trimBack (path : WString) : runs (trimBack path) = runs path := by
  simp only [trimBack]
  split
  · next separator =>
    rcases List.eq_nil_or_concat path with rfl | ⟨front,c,rfl⟩
    · rfl
    · simp only [List.concat_eq_append,List.length_append,List.length_singleton,Nat.add_sub_cancel] at separator ⊢
      rw [List.take_left]
      refine (runs_back ?_).symm
      simpa using separator
  · rfl

theorem runs_trim (path : WString) : runs (trim path) = runs path := (runs_trimBack _).trans (runs_trimFront _)

theorem isSeparator_lower (c : Nat) : isSeparator (lower c) = isSeparator c := by
  simp only [lower]
  split
  · next upper =>
    have first : ∀ n, 0x41 ≤ n → n ≤ 0x5A → n ≠ slash ∧ n ≠ backslash ∧ n + 0x20 ≠ slash ∧ n + 0x20 ≠ backslash := by
      simp only [slash,backslash]
      omega
    obtain ⟨h₁,h₂,h₃,h₄⟩ := first c upper.1 upper.2
    simp [isSeparator,h₁,h₂,h₃,h₄]
  · rfl

theorem splitOnP_lower (path : WString) :
    (wstrToLower path).splitOnP isSeparator = (path.splitOnP isSeparator).map wstrToLower := by
  induction path with
  | nil => rfl
  | cons c path ih =>
    simp only [wstrToLower] at ih ⊢
    rw [List.map_cons,List.splitOnP_cons_eq_if_modifyHead,List.splitOnP_cons_eq_if_modifyHead,isSeparator_lower,ih]
    by_cases separator : isSeparator c = true
    · rw [if_pos separator,if_pos separator]
      rfl
    · rw [if_neg separator,if_neg separator]
      obtain ⟨part,more,split⟩ := List.exists_cons_of_ne_nil (List.splitOnP_ne_nil isSeparator path)
      rw [split]
      rfl

theorem runs_lower (path : WString) : runs (wstrToLower path) = (runs path).map wstrToLower := by
  rw [runs,splitOnP_lower,List.filter_map,runs]
  congr 1
  apply List.filter_congr
  intro part _
  simp [wstrToLower]

/-! ### The loop -/

theorem resolve_last (last : indexOfSlash text = none) :
    FSDriver.resolve find info s current text = ⟨[some text],find s (some text) current⟩ := by
  rw [FSDriver.resolve]
  split
  · rfl
  · next found =>
    rw [last] at found
    cases found

/-- The part before a cut is handed to a lookup; where it is empty, `nullptr` is. -/
theorem resolve_cut (proper : 0 ∉ name ++ c :: rest) (found : indexOfSlash (name ++ c :: rest) = some name.length) :
    FSDriver.resolve find info s current (name ++ c :: rest) =
      (let ffname := if name.length = 0 then none else some name
      match find s ffname current with
      | none => ⟨[ffname],none⟩
      | some (stat,current,s) =>
        if stat ≠ .Ok then ⟨[ffname],some (stat,info,s)⟩
        else (FSDriver.resolve find info s current rest).after ffname) := by
  have part : wsubstring (name ++ c :: rest) 0 name.length = if name.length = 0 then none else some name := by
    rw [wsubstring_zero proper (by simp),List.take_left]
  have behind : (name ++ c :: rest).drop (name.length + 1) = rest := by simp
  rw [FSDriver.resolve]
  split
  · next last =>
    rw [last] at found
    cases found
  · next index cut =>
    rw [found] at cut
    cases cut
    simp only [part,behind]

/-- The first name that is handed out. -/
theorem resolve_first (find : Lookup σ) (info : EntryInfo) (s : σ) (current : EntryInfo) (proper : 0 ∉ name ++ c :: rest)
    (found : indexOfSlash (name ++ c :: rest) = some name.length) : ∃ more,
    (FSDriver.resolve find info s current (name ++ c :: rest)).handed = (if name.length = 0 then none else some name) :: more := by
  rw [resolve_cut proper found]
  simp only
  split
  · exact ⟨[],rfl⟩
  · split
    · exact ⟨[],rfl⟩
    · exact ⟨_,rfl⟩

theorem walk_first (find : Lookup σ) (s : σ) (current : EntryInfo) (run : WString) (names : List WString) :
    ∃ more, (walk find s current (run :: names)).handed = some run :: more := by
  rw [walk]
  split
  · exact ⟨[],rfl⟩
  · split
    · exact ⟨[],rfl⟩
    · exact ⟨_,rfl⟩

/-- Only names of the list are handed out. -/
theorem walk_handed {names : List WString} {handed : Option WString} (member : handed ∈ (walk find s current names).handed) :
    ∃ name ∈ names, handed = some name := by
  induction names generalizing s current with
  | nil => cases member
  | cons name names ih =>
    rw [walk] at member
    split at member
    · exact ⟨name,by simp,List.mem_singleton.mp member⟩
    · split at member
      · exact ⟨name,by simp,List.mem_singleton.mp member⟩
      · rcases List.mem_cons.mp member with here | later
        · exact ⟨name,by simp,here⟩
        · obtain ⟨name',there,same⟩ := ih later
          exact ⟨name',by simp [there],same⟩

/-- Where the loop hands out the names of the walk, the part before a cut is a run. -/
theorem first_run (proper : 0 ∉ name ++ c :: rest) (cut : indexOfSlash (name ++ c :: rest) = some name.length)
    (same : (FSDriver.resolve find info s current (name ++ c :: rest)).handed = (walk find s current (runs (name ++ c :: rest))).handed) :
    name ≠ [] ∧ ∀ x ∈ name, isSeparator x = false := by
  obtain ⟨more,first⟩ := resolve_first find info s current proper cut
  rw [first] at same
  cases split : runs (name ++ c :: rest) with
  | nil =>
    rw [split] at same
    cases same
  | cons run runs' =>
    have isRun : run ∈ runs (name ++ c :: rest) := by simp [split]
    obtain ⟨more',first'⟩ := walk_first find s current run runs'
    rw [split,first'] at same
    have head := (List.cons.inj same).1
    by_cases none : name.length = 0
    · rw [if_pos none] at head
      cases head
    · rw [if_neg none] at head
      cases head
      exact ⟨runs_named isRun,runs_whole isRun⟩

/-- Where the loop hands out the names of the walk, each part is one run. -/
theorem plain_of_handed (proper : 0 ∉ text)
    (same : (FSDriver.resolve find info s current text).handed = (walk find s current (runs text)).handed) : Plain find s current text := by
  induction size : text.length using Nat.strong_induction_on generalizing text s current with
  | _ n ih =>
    cases cut : indexOfSlash text with
    | none =>
      have whole := indexOfSlash_none.mp cut
      rw [resolve_last cut] at same
      refine .last ?_ whole
      intro none
      rw [none] at same
      cases same
    | some index =>
      obtain ⟨name,c,rest,rfl,rfl,cuts⟩ := indexOfSlash_some cut
      have later : 0 ∉ rest := fun member => proper (by simp [member])
      obtain ⟨chars,whole⟩ := first_run proper cut same
      have some_chars : name.length ≠ 0 := fun none => chars (List.eq_nil_of_length_eq_zero none)
      rw [resolve_cut proper cut,runs_cons chars whole cuts.separator,walk] at same
      simp only [if_neg some_chars] at same
      cases found : find s (some name) current with
      | none => exact .fails chars whole cuts (fun _ _ => by rw [found]; simp)
      | some answer =>
        obtain ⟨status,current',s'⟩ := answer
        by_cases ok : status = .Ok
        · subst ok
          simp only [found,ne_eq,not_true_eq_false,if_false,Resolution.after,List.cons.injEq,true_and] at same
          have shorter : rest.length < n := by
            rw [← size,List.length_append,List.length_cons]
            omega
          exact .next chars whole cuts found (ih _ shorter later same rfl)
        · refine .fails chars whole cuts ?_
          intro _ _
          rw [found]
          simp [ok]

/-- Where each part is one run, the loop is the walk. -/
theorem Plain.resolve (plain : Plain find s current text) (proper : 0 ∉ text) (info : EntryInfo) :
    (FSDriver.resolve find info s current text).handed = (walk find s current (runs text)).handed ∧
      ∀ status entry s', (walk find s current (runs text)).result = some (status,entry,s') →
        ∃ info', (FSDriver.resolve find info s current text).result = some (status,info',s') ∧ (status = .Ok → info' = entry) := by
  induction plain with
  | @last s current name chars whole =>
    rw [resolve_last (indexOfSlash_none.mpr whole),runs_part chars whole,walk]
    cases found : find s (some name) current with
    | none => exact ⟨rfl,fun _ _ _ none => by cases none⟩
    | some answer =>
      obtain ⟨status,current',s'⟩ := answer
      by_cases ok : status = .Ok
      · simp [ok,walk,Resolution.after]
      · simp [ok]
  | @fails s current name rest c chars whole cuts missing =>
    have some_chars : name.length ≠ 0 := fun none => chars (List.eq_nil_of_length_eq_zero none)
    rw [resolve_cut proper (indexOfSlash_part whole cuts),runs_cons chars whole cuts.separator,walk]
    simp only [if_neg some_chars]
    cases found : find s (some name) current with
    | none => exact ⟨rfl,fun _ _ _ none => by cases none⟩
    | some answer =>
      obtain ⟨status,current',s'⟩ := answer
      have notOk : status ≠ .Ok := fun ok => missing current' s' (by rw [found,ok])
      simp [notOk]
  | @next s s' current current' name rest c chars whole cuts found later ih =>
    have some_chars : name.length ≠ 0 := fun none => chars (List.eq_nil_of_length_eq_zero none)
    have proper' : 0 ∉ rest := fun member => proper (by simp [member])
    obtain ⟨handed,result⟩ := ih proper'
    rw [resolve_cut proper (indexOfSlash_part whole cuts),runs_cons chars whole cuts.separator,walk]
    simp only [if_neg some_chars,found]
    simpa [Resolution.after,handed] using result

theorem Plain.some_chars (plain : Plain find s current text) : text ≠ [] := by
  cases plain with
  | last chars whole => exact chars
  | fails => simp
  | next => simp

/-! ### Paths -/

theorem trimFront_proper {path : WString} (proper : 0 ∉ path) : 0 ∉ trimFront path := by
  simp only [trimFront]
  split
  · exact fun member => proper (List.mem_of_mem_tail member)
  · exact proper

theorem trim_proper {path : WString} (proper : 0 ∉ path) : 0 ∉ trim path := by
  have front := trimFront_proper proper
  simp only [trim,trimBack]
  split
  · exact fun member => front (List.mem_of_mem_take member)
  · exact front

/-- `GetEntryInfo` resolves what is left of the path without the separators at its ends. -/
theorem getEntryInfo_trim (find : Lookup σ) (info : EntryInfo) (s : σ) {path : WString} (proper : 0 ∉ path) (d : FSDriver) (blank : EntryInfo) :
    d.GetEntryInfo find blank info s path = if trim path = [] then ⟨[],some (.BadPath,info,s)⟩
      else FSDriver.resolve find info s (d.rootEntry blank) (wstrToLower (trim path)) := by
  have proper' := trimFront_proper proper
  have cleaned : ∀ n ≤ (trimFront path).length, n ≠ 0 → (wsubstring (trimFront path) 0 n).getD [] = (trimFront path).take n := by
    intro n room some_chars
    rw [wsubstring_zero proper' room,if_neg some_chars]
    rfl
  have start : d.GetEntryInfo find blank info s path =
      if (trimFront path).length = 0 then ⟨[],some (.BadPath,info,s)⟩
      else
        let wlen := if isSeparator ((trimFront path).getD ((trimFront path).length - 1) 0) then (trimFront path).length - 1
          else (trimFront path).length
        if wlen = 0 then ⟨[],some (.BadPath,info,s)⟩
        else FSDriver.resolve find info s (d.rootEntry blank) (wstrToLower ((wsubstring (trimFront path) 0 wlen).getD [])) := rfl
  rw [start]
  by_cases empty : (trimFront path).length = 0
  · have none : trim path = [] := by
      simp only [trim]
      rw [List.eq_nil_of_length_eq_zero empty]
      rfl
    rw [if_pos empty,if_pos none]
  · have some_chars : trimFront path ≠ [] := fun none => empty (by rw [none]; rfl)
    rw [if_neg empty]
    by_cases separator : isSeparator ((trimFront path).getD ((trimFront path).length - 1) 0) = true
    · have back : trim path = (trimFront path).take ((trimFront path).length - 1) := if_pos separator
      simp only [if_pos separator,back]
      by_cases alone : (trimFront path).length - 1 = 0
      · rw [if_pos alone,alone,List.take_zero,if_pos rfl]
      · rw [if_neg alone,cleaned _ (Nat.sub_le _ _) alone,if_neg]
        intro none
        have size := congrArg List.length none
        rw [List.length_take_of_le (Nat.sub_le _ _)] at size
        exact alone size
    · have back : trim path = trimFront path := if_neg separator
      simp only [if_neg separator,back]
      rw [if_neg empty,cleaned _ (Nat.le_refl _) empty,List.take_length,if_neg some_chars]

/-- `GetEntryInfo` walks along the runs of the path if and only if each part it reaches is one run. -/
theorem getEntryInfo_iff {path : WString} (proper : 0 ∉ path) (d : FSDriver) (blank info : EntryInfo) :
    Resolves d find blank info s path ↔ trim path = [] ∨ Plain find s (d.rootEntry blank) (wstrToLower (trim path)) := by
  have same := getEntryInfo_trim find info s proper d blank
  have isRuns : (runs path).map wstrToLower = runs (wstrToLower (trim path)) := by rw [runs_lower,runs_trim]
  have proper' : 0 ∉ wstrToLower (trim path) := by
    intro member
    obtain ⟨c,there,zero⟩ := List.mem_map.mp member
    exact lower_ne_zero (fun isZero => trim_proper proper (isZero ▸ there)) zero
  constructor
  · intro resolves
    have handed := resolves.handed
    by_cases empty : trim path = []
    · exact .inl empty
    · rw [same,if_neg empty,isRuns] at handed
      exact .inr (plain_of_handed proper' handed)
  · rintro (empty | plain)
    · have none : runs path = [] := by rw [← runs_trim,empty]; rfl
      refine ⟨?_,?_,fun some_runs => absurd none some_runs⟩
      · rw [same,if_pos empty,none]
        rfl
      · intro name member
        rw [same,if_pos empty] at member
        cases member
    · have some_chars : trim path ≠ [] := fun empty => plain.some_chars (by rw [empty]; rfl)
      obtain ⟨handed,result⟩ := plain.resolve proper' info
      rw [← isRuns] at handed result
      refine ⟨?_,?_,?_⟩
      · rw [same,if_neg some_chars]
        exact handed
      · intro name member
        rw [same,if_neg some_chars,handed] at member
        obtain ⟨run,there,isName⟩ := walk_handed member
        obtain ⟨run',isRun,rfl⟩ := List.mem_map.mp there
        exact ⟨_,isName,fun none => runs_named isRun (List.map_eq_nil_iff.mp none)⟩
      · intro _
        rw [same,if_neg some_chars]
        exact result

/-- A path with a separator at its front, and two parts in it. -/
theorem getEntryInfo_iff_absolute : Resolves (FSDriver.mount 0 smallEBR) (fun (s : Unit) _ current => some (.Ok,current,s))
    (fileEntry 0 0) (fileEntry 0 0) () [slash,0x41,slash,0x62] := by
  have found : Plain (fun (s : Unit) _ current => some (.Ok,current,s)) () ((FSDriver.mount 0 smallEBR).rootEntry (fileEntry 0 0)) [0x61,slash,0x62] :=
    .next (show [0x61] ≠ [] by simp) (by decide) (.inl rfl) rfl (.last (by simp) (by decide))
  exact (getEntryInfo_iff (by decide) _ _ _).mpr (.inr found)

/-- A slash behind a backslash: the first name that is looked up is `a\b`. -/
theorem getEntryInfo_mixed : ¬ Resolves (FSDriver.mount 0 smallEBR) ((FSDriver.mount 0 smallEBR).lookup rootDisk.device (fun _ => []) 0x130000 1 [])
    (fileEntry 0 0) (fileEntry 0 0) (idlePort,fun _ => 0) [0x61,backslash,0x62,slash,0x63] := by
  intro resolves
  have proper : 0 ∉ [0x61,backslash,0x62,slash,0x63] := by decide
  have whole : trim [0x61,backslash,0x62,slash,0x63] = [0x61,backslash,0x62,slash,0x63] := by decide
  have handed := resolves.handed
  rw [getEntryInfo_trim _ _ _ proper,whole,if_neg (by simp)] at handed
  have cut : indexOfSlash ([0x61,backslash,0x62] ++ slash :: [0x63]) = some [0x61,backslash,0x62].length := by decide
  obtain ⟨more,first⟩ := resolve_first _ _ _ _ proper cut
  obtain ⟨more',first'⟩ := walk_first _ _ _ [0x61] [[0x62],[0x63]]
  have isRuns : (runs [0x61,backslash,0x62,slash,0x63]).map wstrToLower = [[0x61],[0x62],[0x63]] := by decide
  rw [isRuns,first'] at handed
  have same := handed.symm.trans first
  cases same

end WaifuOS.FAT32
