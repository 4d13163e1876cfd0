import WaifuOS.PageTables

/-!
What the MMU reads in the page tables: the four entries to an address, when each
of them is present (`resolve`). The tables are built by any `MapMemory` and
`SetVirtualFlag` calls whose requests hand out fresh frames (`Built`), whatever
other code does with the allocator and with the pages that are no tables. They
stay a tree, and mapping a page changes what is read for that page and for no
other (`mapMemory_resolve`).
-/
namespace WaifuOS.PageTables
open WaifuOS.Words WaifuOS.Links

/-- The entries that a walk reads, if each of them is present. -/
def entries (ram : Ram) (table : Nat) : List Nat → Option (List PageDirectoryEntry)
  | [] => some []
  | i :: p => (ram table i).target.bind (fun next => (entries ram next p).map (fun es => ram table i :: es))

/-- The four entries to a virtual address. -/
def resolve (s : PageTables) (vAddress : Nat) : Option (List PageDirectoryEntry) := entries s.ram s.PML4 (path vAddress)

/-- The number of the page of a virtual address, its bits 12 to 47. -/
def page (vAddress : Nat) : Nat := vAddress / PAGE_SIZE % 2^36

/-- A page of physical memory that is not `nullptr` and no table. -/
def FreshFrame (s : PageTables) (f : Nat) : Prop :=
  f ≠ 0 ∧ PAGE_SIZE ∣ f ∧ f < 2^52 ∧ ∀ q, q.length ≤ 3 → s.walk q ≠ some f

/-- The request for a missing table hands out a fresh frame. -/
def NextGranted (s : PageTables) (table index : Nat) : Prop :=
  (s.ram table index).GetFlag .Present = false → s.FreshFrame s.RequestPage.1

/-- So does each request of `lastTable`. -/
def LastGranted (s : PageTables) (indexer : PageMapIndexer) : Prop :=
  s.NextGranted s.PML4 indexer.PDPi ∧
    let (PDP,s) := s.nextTable s.PML4 indexer.PDPi
    s.NextGranted PDP indexer.PDi ∧
      let (PD,s) := s.nextTable PDP indexer.PDi
      s.NextGranted PD indexer.PTi

inductive TableCall
  | MapMemory (virtualMemory physMemory : Nat)
  | SetVirtualFlag (address : Nat) (flag : PTFlag) (value : Bool)

namespace TableCall

def exec (s : PageTables) : TableCall → PageTables
  | .MapMemory virtualMemory physMemory => s.MapMemory virtualMemory physMemory
  | .SetVirtualFlag address flag value => s.SetVirtualFlag address flag value

/-- Each request of the call hands out a fresh frame. -/
def Granted (s : PageTables) : TableCall → Prop
  | .MapMemory virtualMemory _ => s.LastGranted (.ofAddress virtualMemory)
  | .SetVirtualFlag address _ _ => s.LastGranted (.ofAddress address)

end TableCall

/-- The entry that `MapMemory` writes. -/
def mapped (tempPDE : PageDirectoryEntry) (physMemory : Nat) : PageDirectoryEntry :=
  ((tempPDE.SetAddress (BitVec.ofNat 64 physMemory >>> 12)).SetFlag .Present true).SetFlag .ReadWrite true

/-- The page tables that calls build from a `PML4` without entries. Between the calls
    other code may use the allocator and write to pages that are no tables, and the tables may be loaded. -/
inductive Built : PageTables → Prop
  | zeroed {s : PageTables} (blank : ∀ i, s.ram s.PML4 i = ⟨0#64⟩) (memory : s.null = .memory) : Built s
  | loaded {s : PageTables} (earlier : Built s) (root : s.PML4 ≠ 0) : Built s.load
  | call {s : PageTables} {call : TableCall} (earlier : Built s) (granted : call.Granted s) : Built (call.exec s)
  | others {s : PageTables} {frames : PageFrameAllocator} {ram : Ram} (earlier : Built s)
      (tables : ∀ q t, q.length ≤ 3 → s.walk q = some t → ram t = s.ram t) : Built { s with frames, ram }

/-- No table is at two places, and the entries that link to tables are writable. No table but the first one may be in
    frame 0, and where address 0 is no memory none is. -/
structure Rooted (s : PageTables) : Prop where
  tree : IsTree (link s.ram) s.PML4 3
  null : s.null = .memory ∨ s.null = .impossible ∧ s.PML4 ≠ 0
  notNull : ∀ q, q ≠ [] → q.length ≤ 3 → s.walk q ≠ some 0
  writable : ∀ q t i, q.length ≤ 2 → s.walk q = some t → (s.ram t i).GetFlag .Present = true →
    (s.ram t i).GetFlag .ReadWrite = true

/-- Tables stay where they are, the entries that are present too, and walks that are not
    in `changed` reach what they did. -/
structure Stable (s s' : PageTables) (changed : List Nat → Prop) : Prop where
  root : s'.PML4 = s.PML4
  tables : ∀ q t, q.length ≤ 3 → s.walk q = some t → s'.walk q = some t
  present : ∀ q t i, q.length ≤ 3 → s.walk q = some t → (s.ram t i).GetFlag .Present = true → ¬ changed (q ++ [i]) →
    s'.ram t i = s.ram t i
  kept : ∀ q, q.length = 4 → ¬ changed q → s'.walk q = s.walk q

variable {s s' u : PageTables} {v w physMemory table t i j f : Nat} {p q : List Nat} {changed changed' : List Nat → Prop}

/-- The tables are accessed without a fault. -/
theorem Rooted.reads (rooted : Rooted s) (at_q : s.walk q = some table) (short : q.length ≤ 3) : s.faults table = false := by
  refine not_faults (rooted.null.imp id (fun ⟨off,root⟩ => ⟨off,?_⟩))
  rintro rfl
  cases q with
  | nil => exact root (Option.some.inj at_q)
  | cons i q => exact rooted.notNull (i :: q) (List.cons_ne_nil i q) short at_q

theorem Stable.refl : Stable s s changed :=
  ⟨rfl,fun _ _ _ reached => reached,fun _ _ _ _ _ _ _ => rfl,fun _ _ _ => rfl⟩

theorem Stable.trans (first : Stable s s' changed) (second : Stable s' u changed) : Stable s u changed where
  root := second.root.trans first.root
  tables := fun q t short reached => second.tables q t short (first.tables q t short reached)
  present := by
    intro q t i short reached present other
    have same := first.present q t i short reached present other
    rw [second.present q t i short (first.tables q t short reached) (by rw [same]; exact present) other,same]
  kept := fun q full other => (second.kept q full other).trans (first.kept q full other)

theorem Stable.weaken (stable : Stable s s' changed) (more : ∀ q, changed q → changed' q) : Stable s s' changed' where
  root := stable.root
  tables := stable.tables
  present := fun q u i short reached present other => stable.present q u i short reached present (fun hit => other (more _ hit))
  kept := fun q full other => stable.kept q full (fun hit => other (more q hit))

theorem target_present {e : PageDirectoryEntry} {next : Nat} (there : e.target = some next) : e.GetFlag .Present = true := by
  simp only [PageDirectoryEntry.target] at there
  split at there
  · assumption
  · cases there

theorem target_none {e : PageDirectoryEntry} (missing : e.GetFlag .Present = false) : e.target = none := by
  rw [PageDirectoryEntry.target,if_neg (by simp [missing])]

/-- The entries are read exactly when the walk reaches its end. -/
theorem entries_isSome (ram : Ram) (root : Nat) (p : List Nat) :
    (entries ram root p).isSome = (follow (link ram) root p).isSome := by
  induction p generalizing root with
  | nil => rfl
  | cons i p ih =>
    rw [entries,follow,link_eq]
    cases there : (ram root i).target with
    | none => rfl
    | some next =>
      rw [Option.bind_some,Option.bind_some,Option.isSome_map]
      exact ih next

/-- Where the entries of a walk are the same, they are read as before. -/
theorem entries_congr {ram ram' : Ram} {root : Nat} {p : List Nat}
    (same : ∀ q i r u, p = q ++ i :: r → follow (link ram) root q = some u → ram' u i = ram u i) :
    entries ram' root p = entries ram root p := by
  induction p generalizing root with
  | nil => rfl
  | cons i p ih =>
    have here : ram' root i = ram root i := same [] i p root rfl rfl
    rw [entries,entries,here]
    cases there : (ram root i).target with
    | none => rfl
    | some next =>
      have later : entries ram' next p = entries ram next p := by
        refine ih (fun q j r u split reached => same (i :: q) j r u (by rw [split]; rfl) ?_)
        rw [follow,link_eq,there,Option.bind_some]
        exact reached
      rw [Option.bind_some,Option.bind_some,later]

theorem entries_append {ram : Ram} {root : Nat} {p q : List Nat} {es : List PageDirectoryEntry} {u : Nat}
    (read : entries ram root p = some es) (reached : follow (link ram) root p = some u) :
    entries ram root (p ++ q) = (entries ram u q).map (fun rest => es ++ rest) := by
  induction p generalizing root es with
  | nil =>
    cases read
    cases reached
    simp
  | cons i p ih =>
    rw [follow,link_eq] at reached
    rw [entries] at read
    cases there : (ram root i).target with
    | none =>
      rw [there] at reached
      cases reached
    | some next =>
      rw [there,Option.bind_some] at reached read
      obtain ⟨rest,below,rfl⟩ := Option.map_eq_some_iff.mp read
      rw [List.cons_append,entries,there,Option.bind_some,ih below reached,Option.map_map]
      rfl

/-- Each entry that is read is the entry of the table before it, and present. -/
theorem entries_mem {ram : Ram} {root : Nat} {p : List Nat} {es : List PageDirectoryEntry}
    (read : entries ram root p = some es) {e : PageDirectoryEntry} (member : e ∈ es) :
    ∃ q i r u, p = q ++ i :: r ∧ follow (link ram) root q = some u ∧ e = ram u i ∧ e.GetFlag .Present = true := by
  induction p generalizing root es with
  | nil =>
    cases read
    cases member
  | cons i p ih =>
    rw [entries] at read
    cases there : (ram root i).target with
    | none =>
      rw [there] at read
      cases read
    | some next =>
      rw [there,Option.bind_some] at read
      obtain ⟨rest,below,rfl⟩ := Option.map_eq_some_iff.mp read
      rcases List.mem_cons.mp member with rfl | later
      · exact ⟨[],i,p,root,rfl,rfl,rfl,target_present there⟩
      · obtain ⟨q,j,r,u,split,reached,same⟩ := ih below later
        refine ⟨i :: q,j,r,u,by rw [split]; rfl,?_,same⟩
        rw [follow,link_eq,there,Option.bind_some]
        exact reached

/-- An address whose walk is not in `changed` is resolved as before. -/
theorem Stable.resolve (stable : Stable s s' changed) (full : ¬ changed (path w))
    (short : ∀ q, changed q → q.length = 4) : s'.resolve w = s.resolve w := by
  have length : (path w).length = 4 := rfl
  have same := stable.kept (path w) length full
  have both : (s'.resolve w).isSome = (s.resolve w).isSome := by
    rw [PageTables.resolve,PageTables.resolve,entries_isSome,entries_isSome]
    exact congrArg Option.isSome same
  cases before : s.resolve w with
  | none =>
    rw [before] at both
    exact Option.isNone_iff_eq_none.mp (by simpa using both)
  | some es =>
    rw [← before,PageTables.resolve,PageTables.resolve,stable.root]
    apply entries_congr
    intro q i r u split reached
    have level : q.length + (r.length + 1) = 4 := by
      rw [← length,split,List.length_append,List.length_cons]
    -- The walk goes on after this entry, so the entry is present.
    have present : (s.ram u i).GetFlag .Present = true := by
      have whole : (follow (link s.ram) s.PML4 (path w)).isSome = true := by
        rw [← entries_isSome]
        exact congrArg Option.isSome before
      rw [split,follow_append,reached,Option.bind_some,follow,link_eq] at whole
      cases there : (s.ram u i).target with
      | none =>
        rw [there] at whole
        cases whole
      | some next => exact target_present there
    refine stable.present q u i (by omega) reached present (fun hit => full ?_)
    have end_here : r = [] := by
      have four := short _ hit
      rw [List.length_append,List.length_singleton] at four
      exact List.length_eq_zero_iff.mp (by omega)
    rw [split,end_here]
    exact hit

theorem entries_length {ram : Ram} {root : Nat} {p : List Nat} {es : List PageDirectoryEntry}
    (read : entries ram root p = some es) : es.length = p.length := by
  induction p generalizing root es with
  | nil =>
    cases read
    rfl
  | cons i p ih =>
    rw [entries] at read
    cases there : (ram root i).target with
    | none =>
      rw [there] at read
      cases read
    | some next =>
      rw [there,Option.bind_some] at read
      obtain ⟨rest,below,rfl⟩ := Option.map_eq_some_iff.mp read
      rw [List.length_cons,List.length_cons,ih below]

/-- What is read in the tables after a page has been hung in. -/
theorem hang_ram (other : f ≠ table) (notNew : t ≠ f) (notHere : ¬ (t = table ∧ j = i)) :
    (s.hang table i f).ram t j = s.ram t j := by
  by_cases same : t = table
  · subst same
    have index : j ≠ i := fun hit => notHere ⟨rfl,hit⟩
    simp [hang,write,blank,Function.update_of_ne index,Function.update_of_ne notNew]
  · simp [hang,write,blank,Function.update_of_ne same,Function.update_of_ne notNew]

/-- The entry that `hang` and `MapMemory` write is present and writable. -/
theorem linked_flags {e : PageDirectoryEntry} {flag : PTFlag} (set : flag = .Present ∨ flag = .ReadWrite) :
    ((e.SetFlag .Present true).SetFlag .ReadWrite true).GetFlag flag = true := by
  rcases set with rfl | rfl <;> simp

/-- Hanging in a fresh frame as a table keeps what is there. -/
theorem hang_stable (rooted : Rooted s) (at_p : s.walk p = some table) (level : p.length ≤ 2)
    (missing : (s.ram table i).GetFlag .Present = false) (fresh : s.FreshFrame f) :
    (s.hang table i f).walk (p ++ [i]) = some f ∧ Rooted (s.hang table i f) ∧
      Stable s (s.hang table i f) (fun _ => False) := by
  obtain ⟨notFirst,aligned,bound,noTable⟩ := fresh
  have page : pageOf f = f := by
    obtain ⟨k,rfl⟩ := aligned
    rw [Nat.mul_comm] at bound ⊢
    exact pageOf_frame (by unfold PAGE_SIZE at bound; omega)
  have noLink : link s.ram table i = none := target_none missing
  obtain ⟨here,kept,tree⟩ := hang_follow rooted.tree at_p level noLink noTable (by omega) page
  have other : f ≠ table := by
    rintro rfl
    exact noTable p (by omega) at_p
  have gone : s.walk (p ++ [i]) = none := by rw [walk_concat at_p,target_none missing]
  have old : ∀ q u, q.length ≤ 3 → s.walk q = some u → (s.hang table i f).walk q = some u := by
    intro q u short reached
    rw [kept q (by omega) (by rintro rfl; rw [gone] at reached; cases reached),reached]
  have read : ∀ q u j, q.length ≤ 3 → s.walk q = some u → ¬ (u = table ∧ j = i) → (s.hang table i f).ram u j = s.ram u j := by
    intro q u j short reached apart
    refine hang_ram other ?_ apart
    rintro rfl
    exact noTable q short reached
  refine ⟨here,⟨tree,rooted.null,?_,?_⟩,rfl,old,?_,fun q full _ => kept q (by omega) ?_⟩
  · intro q some_index short reached
    by_cases new : q = p ++ [i]
    · rw [new,here] at reached
      exact notFirst (Option.some.inj reached)
    · exact rooted.notNull q some_index short ((kept q (by omega) new).symm.trans reached)
  · intro q u j short reached present
    by_cases new : q = p ++ [i]
    · subst new
      cases here.symm.trans reached
      have empty : (s.hang table i f).ram f j = ⟨0#64⟩ := by simp [hang,write,blank,Function.update_of_ne other]
      rw [empty] at present
      exact absurd present (by decide)
    · have before : s.walk q = some u := (kept q (by omega) new).symm.trans reached
      by_cases link : u = table ∧ j = i
      · obtain ⟨rfl,rfl⟩ := link
        have written : (s.hang u j f).ram u j =
            (((s.ram u j).SetAddress (BitVec.ofNat 64 f >>> 12)).SetFlag .Present true).SetFlag .ReadWrite true := by
          simp [hang,write]
        rw [written]
        exact linked_flags (.inr rfl)
      · rw [read q u j (by omega) before link] at present ⊢
        exact rooted.writable q u j short before present
  · intro q u j short reached present _
    apply read q u j short reached
    rintro ⟨rfl,rfl⟩
    rw [missing] at present
    cases present
  · intro same
    rw [same,List.length_append,List.length_singleton] at full
    omega

/-- The next table is there afterwards. -/
theorem nextTable_stable (rooted : Rooted s) (at_p : s.walk p = some table) (level : p.length ≤ 2)
    (granted : s.NextGranted table i) :
    (s.nextTable table i).2.walk (p ++ [i]) = some (s.nextTable table i).1 ∧ Rooted (s.nextTable table i).2 ∧
      Stable s (s.nextTable table i).2 (fun _ => False) := by
  cases present : (s.ram table i).GetFlag .Present with
  | true =>
    rw [nextTable_present (rooted.reads at_p (by omega)) present]
    refine ⟨?_,rooted,.refl⟩
    rw [walk_concat at_p,PageDirectoryEntry.target,if_pos present]
  | false =>
    -- The request changes only the allocator.
    have cleared : s.RequestPage.2.faults s.RequestPage.1 = false :=
      not_faults (s := s.RequestPage.2) (rooted.null.imp id (fun excluded => ⟨excluded.1,(granted present).1⟩))
    have made : s.nextTable table i = (s.RequestPage.1,s.RequestPage.2.hang table i s.RequestPage.1) := by
      simp [nextTable,rooted.reads at_p (by omega),present,cleared]
    obtain ⟨here,rooted',stable⟩ := hang_stable (s := s.RequestPage.2) (f := s.RequestPage.1)
      ⟨rooted.tree,rooted.null,rooted.notNull,rooted.writable⟩ at_p level present (granted present)
    rw [made]
    exact ⟨here,rooted',stable.root,stable.tables,stable.present,stable.kept⟩

/-- So is the table of the last level after three steps. -/
theorem lastTable_stable (rooted : Rooted s) (granted : s.LastGranted (.ofAddress v)) :
    (s.lastTable (.ofAddress v)).2.walk ((path v).take 3) = some (s.lastTable (.ofAddress v)).1 ∧
      Rooted (s.lastTable (.ofAddress v)).2 ∧ Stable s (s.lastTable (.ofAddress v)).2 (fun _ => False) := by
  obtain ⟨granted₁,granted₂,granted₃⟩ := granted
  obtain ⟨at₁,rooted₁,stable₁⟩ := nextTable_stable rooted (p := []) rfl (by decide) granted₁
  obtain ⟨at₂,rooted₂,stable₂⟩ := nextTable_stable rooted₁ at₁ (by simp) granted₂
  obtain ⟨at₃,rooted₃,stable₃⟩ := nextTable_stable rooted₂ at₂ (by simp) granted₃
  exact ⟨at₃,rooted₃,(stable₁.trans stable₂).trans stable₃⟩

/-- An entry that is written in a table of the last level changes what is read through it. -/
theorem write_stable {e : PageDirectoryEntry} (rooted : Rooted s) (at_table : s.walk p = some table) (level : p.length = 3) :
    Rooted (s.write table i e) ∧ Stable s (s.write table i e) (fun q => q = p ++ [i]) := by
  obtain ⟨_,kept⟩ := write_follow (e := e) (i := i) rooted.tree at_table level
  have tables : ∀ q, q.length ≤ 3 → (s.write table i e).walk q = s.walk q := by
    intro q short
    apply kept q (by omega)
    rintro rfl
    rw [List.length_append,level,List.length_singleton] at short
    omega
  have read : ∀ q u j, q.length ≤ 3 → s.walk q = some u → q ++ [j] ≠ p ++ [i] → (s.write table i e).ram u j = s.ram u j := by
    intro q u j short reached apart
    by_cases here : u = table
    · subst here
      have place : q = p := rooted.tree q p u short (by omega) reached at_table
      have index : j ≠ i := by
        rintro rfl
        exact apart (by rw [place])
      simp [write,Function.update_of_ne index]
    · simp [write,Function.update_of_ne here]
  refine ⟨⟨isTree_of_follow rooted.tree tables,rooted.null,fun q some_index short => by rw [tables q short]; exact rooted.notNull q some_index short,?_⟩,
    rfl,fun q u short reached => (tables q short).trans reached,
    fun q u j short reached _ other => read q u j short reached other,fun q full other => kept q (by omega) other⟩
  intro q u j short reached present
  have before : s.walk q = some u := (tables q (by omega)).symm.trans reached
  have apart : q ++ [j] ≠ p ++ [i] := by
    intro same
    have lengths := congrArg List.length same
    simp only [List.length_append,List.length_singleton] at lengths
    omega
  rw [read q u j (by omega) before apart] at present ⊢
  exact rooted.writable q u j short before present

theorem mapMemory_stable (rooted : Rooted s) (granted : s.LastGranted (.ofAddress v)) :
    Rooted (s.MapMemory v physMemory) ∧ Stable s (s.MapMemory v physMemory) (fun q => q = path v) := by
  obtain ⟨at_table,rooted₁,stable₁⟩ := lastTable_stable rooted granted
  rw [mapMemory_eq rfl (rooted₁.reads at_table (Nat.le_refl 3))]
  obtain ⟨rooted₂,stable₂⟩ := write_stable rooted₁ at_table rfl
  exact ⟨rooted₂,(stable₁.weaken (fun _ => False.elim)).trans stable₂⟩

theorem setVirtualFlag_stable {flag : PTFlag} {value : Bool} (rooted : Rooted s) (granted : s.LastGranted (.ofAddress v)) :
    Rooted (s.SetVirtualFlag v flag value) ∧ Stable s (s.SetVirtualFlag v flag value) (fun q => q = path v) := by
  obtain ⟨at_table,rooted₁,stable₁⟩ := lastTable_stable rooted granted
  rw [setVirtualFlag_eq rfl (rooted₁.reads at_table (Nat.le_refl 3))]
  obtain ⟨rooted₂,stable₂⟩ := write_stable rooted₁ at_table rfl
  exact ⟨rooted₂,(stable₁.weaken (fun _ => False.elim)).trans stable₂⟩

/-! ### Runs -/

theorem built_rooted (built : Built s) : Rooted s := by
  induction built with
  | @zeroed s blank memory =>
    have empty : ∀ i, link s.ram s.PML4 i = none := fun i => by rw [link_eq,blank i,target_blank]
    have root_only : ∀ q t, s.walk q = some t → q = [] := by
      intro q t reached
      cases q with
      | nil => rfl
      | cons j q =>
        rw [walk,follow,empty] at reached
        cases reached
    refine ⟨isTree_blank empty,.inl memory,fun q some_index _ reached => some_index (root_only q 0 reached),
      fun q t i _ reached present => ?_⟩
    cases root_only q t reached
    cases reached
    rw [blank i] at present
    exact absurd present (by decide)
  | @loaded s _ root rooted => exact ⟨rooted.tree,.inr ⟨rfl,root⟩,rooted.notNull,rooted.writable⟩
  | @call s call _ granted rooted =>
    cases call with
    | MapMemory virtualMemory physMemory => exact (mapMemory_stable rooted granted).1
    | SetVirtualFlag address flag value => exact (setVirtualFlag_stable rooted granted).1
  | @others s frames ram _ tables rooted =>
    have kept : ∀ q, q.length ≤ 4 → follow (link ram) s.PML4 q = follow (link s.ram) s.PML4 q :=
      follow_congr (fun u j q short reached => by rw [link,tables q u short reached]; rfl)
    refine ⟨isTree_of_follow rooted.tree (fun q short => kept q (by omega)),rooted.null,
      fun q some_index short reached => rooted.notNull q some_index short ((kept q (by omega)).symm.trans reached),
      fun q t i short reached present => ?_⟩
    have before : s.walk q = some t := (kept q (by omega)).symm.trans reached
    have same : ram t = s.ram t := tables q t (by omega) before
    change (ram t i).GetFlag .Present = true at present
    change (ram t i).GetFlag .ReadWrite = true
    rw [same] at present ⊢
    exact rooted.writable q t i short before present

/-- The walk of an address tells its page. -/
theorem path_eq_iff : path w = path v ↔ page w = page v := by
  rw [path_eq,path_eq]
  simp only [List.cons.injEq,and_true]
  simp only [page,PAGE_SIZE]
  omega

theorem mapped_address (e : PageDirectoryEntry) : (mapped e physMemory).GetAddress.toNat = (physMemory >>> 12) % 2^40 := by
  have mask : (0x000000FFFFFFFFFF#64).toNat = 2^40 - 1 := by decide
  rw [mapped,PageDirectoryEntry.setFlag_getAddress,PageDirectoryEntry.setFlag_getAddress,
    PageDirectoryEntry.setAddress_getAddress,BitVec.toNat_and,BitVec.toNat_ushiftRight,BitVec.toNat_ofNat,mask,
    Nat.and_two_pow_sub_one_eq_mod,Nat.shiftRight_eq_div_pow,Nat.shiftRight_eq_div_pow]
  omega

/-- After mapping, the four entries to the page are there and writable, and the last one holds the frame. -/
theorem mapMemory_leaf (rooted : Rooted s) (granted : s.LastGranted (.ofAddress v)) : ∃ upper leaf,
    (s.MapMemory v physMemory).resolve v = some (upper ++ [leaf]) ∧ upper.length = 3 ∧
      leaf.GetAddress.toNat = (physMemory >>> 12) % 2^40 ∧
      ∀ e ∈ upper ++ [leaf], e.GetFlag .Present = true ∧ e.GetFlag .ReadWrite = true := by
  obtain ⟨at_table,rooted₁,_⟩ := lastTable_stable rooted granted
  obtain ⟨PT,s₁,last⟩ : ∃ PT s₁, s.lastTable (.ofAddress v) = (PT,s₁) := ⟨_,_,rfl⟩
  rw [last] at at_table rooted₁
  have result : s.MapMemory v physMemory = s₁.write PT (PageMapIndexer.ofAddress v).Pi
      (mapped (s₁.ram PT (PageMapIndexer.ofAddress v).Pi) physMemory) := by
    rw [mapMemory_eq last (rooted₁.reads at_table (Nat.le_refl 3)),mapped]
  obtain ⟨rooted₂,stable⟩ := write_stable (i := (PageMapIndexer.ofAddress v).Pi)
    (e := mapped (s₁.ram PT (PageMapIndexer.ofAddress v).Pi) physMemory) rooted₁ at_table rfl
  rw [← result] at rooted₂ stable
  have at_table' := stable.tables _ _ (by simp [path]) at_table
  obtain ⟨leaf,leafIs⟩ : ∃ leaf, leaf = mapped (s₁.ram PT (PageMapIndexer.ofAddress v).Pi) physMemory := ⟨_,rfl⟩
  have written : (s.MapMemory v physMemory).ram PT (PageMapIndexer.ofAddress v).Pi = leaf := by
    rw [result,leafIs]
    simp [write]
  have flags : leaf.GetFlag .Present = true ∧ leaf.GetFlag .ReadWrite = true := by
    rw [leafIs]
    exact ⟨linked_flags (.inl rfl),linked_flags (.inr rfl)⟩
  obtain ⟨upper,read⟩ : ∃ upper, entries (s.MapMemory v physMemory).ram (s.MapMemory v physMemory).PML4 ((path v).take 3) = some upper := by
    rw [← Option.isSome_iff_exists,entries_isSome]
    exact Option.isSome_iff_exists.mpr ⟨_,at_table'⟩
  refine ⟨upper,leaf,?_,entries_length read,by rw [leafIs]; exact mapped_address _,?_⟩
  · have end_here : entries (s.MapMemory v physMemory).ram PT [(PageMapIndexer.ofAddress v).Pi] = some [leaf] := by
      rw [entries,written,PageDirectoryEntry.target,if_pos flags.1]
      rfl
    have whole := entries_append (q := [(PageMapIndexer.ofAddress v).Pi]) read at_table'
    rw [end_here] at whole
    exact whole
  · intro e member
    rcases List.mem_append.mp member with above | here
    · obtain ⟨q,j,r,t,split,reached,rfl,there⟩ := entries_mem read above
      have level : q.length + (r.length + 1) = 3 := by
        have lengths := congrArg List.length split
        rw [List.length_append,List.length_cons] at lengths
        exact lengths.symm
      exact ⟨there,rooted₂.writable q t j (by omega) reached there⟩
    · cases List.mem_singleton.mp here
      exact flags

/-- In every tree of tables that is built so, mapping a page makes the walk of each of its
    addresses yield the frame, and leaves what the walk of any other address yields. -/
theorem mapMemory_resolve (built : Built s) (granted : (TableCall.MapMemory v physMemory).Granted s) (w : Nat) :
    (page w = page v → ∃ upper leaf, (s.MapMemory v physMemory).resolve w = some (upper ++ [leaf]) ∧ upper.length = 3 ∧
      leaf.GetAddress.toNat = (physMemory >>> 12) % 2^40 ∧
      ∀ e ∈ upper ++ [leaf], e.GetFlag .Present = true ∧ e.GetFlag .ReadWrite = true) ∧
    (page w ≠ page v → (s.MapMemory v physMemory).resolve w = s.resolve w) := by
  have rooted := built_rooted built
  constructor
  · intro same
    have walk : (s.MapMemory v physMemory).resolve w = (s.MapMemory v physMemory).resolve v := by
      rw [PageTables.resolve,PageTables.resolve,path_eq_iff.mpr same]
    rw [walk]
    exact mapMemory_leaf rooted granted
  · intro other
    refine (mapMemory_stable rooted granted).2.resolve (fun same => other (path_eq_iff.mp same)) ?_
    rintro q rfl
    rfl

/-! ### The requests of the allocator -/

/-- While the allocator has clear frames and frame 0 is marked, the request for a
    missing table hands out a fresh frame. -/
theorem nextGranted_of_supplied {n : Nat} {V : Finset Nat} (sound : Wellformed s) (supplied : Supplied s n V)
    (null : s.frames.used 0 = true) (at_p : s.walk p = some table) (planned : p ++ [i] ∈ tablesOf V) : s.NextGranted table i := by
  intro missing
  have gone : s.walk (p ++ [i]) = none := by rw [walk_concat at_p,target_none missing]
  have one : 0 < ((tablesOf V).filter (fun q => s.walk q = none)).card :=
    Finset.card_pos.mpr ⟨p ++ [i],Finset.mem_filter.mpr ⟨planned,gone⟩⟩
  have left : 0 < s.frames.clearFrames.card := by unfold Supplied at supplied; omega
  obtain ⟨f,s',_,request,inside,clear,_⟩ := requestPage_of_clear sound left
  rw [request]
  have bound : f < 2^40 := by have := sound.bounded; omega
  refine ⟨?_,⟨f,Nat.mul_comm f PAGE_SIZE⟩,by change f * PAGE_SIZE < 2^52; unfold PAGE_SIZE; omega,?_⟩
  · intro zero
    have first : f = 0 := PageFrameAllocator.frame_injective (zero.trans (Nat.zero_mul PAGE_SIZE).symm)
    rw [first,null] at clear
    cases clear
  · intro q short reached
    obtain ⟨k,_,place,used⟩ := sound.held q _ short reached
    rw [← PageFrameAllocator.frame_injective place,clear] at used
    cases used

/-- So the allocator grants the calls that it has clear frames for. -/
theorem lastGranted_of_supplied {n : Nat} {V : Finset Nat} (sound : Wellformed s) (supplied : Supplied s n V)
    (null : s.frames.used 0 = true) (member : v ∈ V) : s.LastGranted (.ofAddress v) := by
  obtain ⟨planned₁,planned₂,planned₃⟩ := path_planned member
  obtain ⟨at₁,sound₁,supplied₁,grown₁⟩ := nextTable_supplied sound supplied (p := []) rfl (by decide) planned₁
  obtain ⟨at₂,sound₂,supplied₂,grown₂⟩ := nextTable_supplied sound₁ supplied₁ at₁ (by simp) planned₂
  exact ⟨nextGranted_of_supplied sound supplied null (p := []) rfl planned₁,
    nextGranted_of_supplied sound₁ supplied₁ (grown₁.used 0 null) at₁ planned₂,
    nextGranted_of_supplied sound₂ supplied₂ (grown₂.used 0 (grown₁.used 0 null)) at₂ planned₃⟩

/-- Page tables with an empty `PML4` in the first of four clear frames. -/
def fourFrames : PageTables :=
  startPaging ⟨⟨⟨1,0,fun _ => 0b11110000#8⟩,true,0,0,0,0,by decide⟩,fun _ _ => ⟨0#64⟩,0,.memory⟩

theorem mapMemory_resolve_fourFrames : page 0x1FFF = page 0x1234 ∧ ∃ upper leaf,
    (fourFrames.MapMemory 0x1234 0x7000).resolve 0x1FFF = some (upper ++ [leaf]) ∧ leaf.GetAddress.toNat = 7 := by
  have built : Built fourFrames := .zeroed (fun i => by simp [fourFrames,startPaging,blank]) rfl
  have left : (⟨⟨1,0,fun _ => 0b11110000#8⟩,true,0,0,0,0,by decide⟩ : PageFrameAllocator).clearFrames.Nonempty :=
    ⟨4,by decide +kernel⟩
  have sound : Wellformed fourFrames := startPaging_wellformed (by decide +kernel) left
  have supplied : Supplied fourFrames 0 {0x1234} := by
    simp only [Supplied]
    decide +kernel
  have granted := lastGranted_of_supplied sound supplied (by decide +kernel) (Finset.mem_singleton_self _)
  have granted' : (TableCall.MapMemory 0x1234 0x7000).Granted fourFrames := granted
  obtain ⟨upper,leaf,read,_,frame,_⟩ := (mapMemory_resolve built granted' 0x1FFF).1 (by decide)
  exact ⟨by decide,upper,leaf,read,frame⟩

end WaifuOS.PageTables
