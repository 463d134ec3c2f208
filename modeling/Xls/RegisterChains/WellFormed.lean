import Mathlib.Data.List.Perm.Basic
import Xls.RegisterChains

/-!
# Xls.RegisterChains.WellFormed

The chains partition the registers, and no chain overwrites the value at its start too early;
the runs of a chain are contiguous and mutually exclusive (`registerChains_wellFormed`).
-/

namespace Xls.RegisterChains

open List Option

/-! ### Chains -/

/-- A register is written from the read of its predecessor, in the stage of that read, and
read in a later stage. -/
def Follows (first next : RegisterData) : Prop :=
  next.write.data = first.read ∧ next.writeStage = first.readStage ∧
    next.writeStage < next.readStage

/-- A register that is written no earlier than it is read. -/
def IsLoopback (reg : RegisterData) : Prop := reg.readStage ≤ reg.writeStage

theorem isChainable_iff {first next : RegisterData} :
    isChainable first next = true ↔ Follows first next := by
  unfold isChainable Follows
  split
  · simp
    omega
  · split
    · simp
      omega
    · split <;> simp <;> omega

theorem isClobbered_iff {chainStart chainEnd : RegisterData} :
    isClobbered chainStart chainEnd = false ↔
      (IsLoopback chainStart → chainEnd.writeStage < chainStart.writeStage) := by
  unfold isClobbered IsLoopback
  split <;> simp <;> omega

/-- A chain in which each register follows the one before it, and whose start, if it is a
loopback, is written after all others. -/
structure WellFormed (start : RegisterData) (rest : List RegisterData) : Prop where
  linked : (start :: rest).IsChain Follows
  notClobbered : IsLoopback start → ∀ reg ∈ rest, reg.writeStage < start.writeStage

variable {rest : List RegisterData} {d : Chain} {chains' : List Chain}

/-- No register behind the start is a loopback. -/
theorem WellFormed.not_isLoopback {start : RegisterData} (h : WellFormed start rest) :
    ∀ reg ∈ rest, ¬IsLoopback reg := by
  have hlinked := h.linked
  clear h
  induction rest generalizing start with
  | nil => simp
  | cons next rest ih =>
    obtain ⟨hfollows, hrest⟩ := isChain_cons_cons.mp hlinked
    exact forall_mem_cons.mpr ⟨not_le.mpr hfollows.2.2, ih hrest⟩

/-- A register that follows no loopback is written before the end of the chain. -/
theorem writeStage_le {start : RegisterData} (h : (start :: rest).IsChain Follows)
    (hstart : ¬IsLoopback start) (reg : RegisterData) (hreg : reg ∈ start :: rest) :
    reg.writeStage ≤ ((start :: rest).getLast (cons_ne_nil _ _)).writeStage := by
  induction rest generalizing start reg with
  | nil =>
    rw [mem_singleton.mp hreg]
    exact le_refl _
  | cons next rest ih =>
    obtain ⟨⟨-, hstage, hlater⟩, hrest⟩ := isChain_cons_cons.mp h
    have hnext : ¬IsLoopback next := not_le.mpr hlater
    rw [getLast_cons (cons_ne_nil _ _)]
    rcases mem_cons.mp hreg with rfl | hreg
    · have hle := ih hrest hnext next mem_cons_self
      unfold IsLoopback at hstart
      omega
    · exact ih hrest hnext reg hreg

/-- The property of a chain as it is stored. -/
def Chain.Ok (c : Chain) : Prop := ∀ start rest, c.registers = start :: rest → WellFormed start rest

theorem ok_singleton (reg : RegisterData) : (Chain.singleton reg).Ok := by
  intro start rest h
  cases h
  exact ⟨isChain_singleton _, fun _ reg hreg => nomatch hreg⟩

variable {c : Chain} {reg : RegisterData} {registers : List RegisterData}

/-- Chains are put behind one another. -/
theorem ok_append (hc : c.Ok) (hd : d.Ok) (hmerge : canMerge c d = true) : (c.append d).Ok := by
  obtain ⟨cs, hcs⟩ := c
  obtain ⟨ds, hds⟩ := d
  obtain ⟨cStart, cRest, rfl⟩ := exists_cons_of_ne_nil hcs
  obtain ⟨dStart, dRest, rfl⟩ := exists_cons_of_ne_nil hds
  have hwellC := hc cStart cRest rfl
  have hwellD := hd dStart dRest rfl
  rw [canMerge, Bool.and_eq_true, Bool.not_eq_true', isChainable_iff, isClobbered_iff] at hmerge
  obtain ⟨hfollows, hclobbered⟩ := hmerge
  simp only [Chain.front, Chain.back, head_cons] at hfollows hclobbered
  intro start rest h
  simp only [Chain.append, cons_append] at h
  obtain ⟨rfl, rfl⟩ := List.cons.inj h
  constructor
  · rw [← cons_append]
    refine isChain_append.mpr ⟨hwellC.linked, hwellD.linked, ?_⟩
    intro x hx y hy
    rw [getLast?_eq_getLast_of_ne_nil (cons_ne_nil _ _), mem_some_iff] at hx
    rw [head?_cons, mem_some_iff] at hy
    rw [← hx, ← hy]
    exact hfollows
  · intro hloop reg hreg
    rcases mem_append.mp hreg with hreg | hreg
    · exact hwellC.notClobbered hloop reg hreg
    · -- The end of the second chain is written before the start, the rest of it earlier.
      have hnot : ¬IsLoopback dStart := not_le.mpr hfollows.2.2
      exact lt_of_le_of_lt (writeStage_le hwellD.linked hnot reg hreg) (hclobbered hloop)

theorem ok_pushFront (hc : c.Ok) (hchainable : isChainable reg c.front = true)
    (hclobbered : isClobbered reg c.back = false) : (c.pushFront reg).Ok := by
  have hmerge : canMerge (Chain.singleton reg) c = true := by
    rw [canMerge, Bool.and_eq_true, Bool.not_eq_true']
    exact ⟨hchainable, hclobbered⟩
  exact ok_append (ok_singleton reg) hc hmerge

theorem ok_pushBack (hc : c.Ok) (hchainable : isChainable c.back reg = true)
    (hclobbered : isClobbered c.front reg = false) : (c.pushBack reg).Ok := by
  have hmerge : canMerge c (Chain.singleton reg) = true := by
    rw [canMerge, Bool.and_eq_true, Bool.not_eq_true']
    exact ⟨hchainable, hclobbered⟩
  exact ok_append hc (ok_singleton reg) hmerge

/-! ### Insertion -/

/-- All registers of chains. -/
def allRegisters (chains : List Chain) : List RegisterData := chains.flatMap Chain.registers

/-- The chains around a modified one. -/
def Modified.chains (m : Modified) : List Chain := m.before ++ m.chain :: m.after

/-- Chains with some registers, all of them well formed. -/
structure Holds (chains : List Chain) (registers : List RegisterData) : Prop where
  ok : ∀ c ∈ chains, c.Ok
  perm : (allRegisters chains).Perm registers

theorem Holds.permChains {chains : List Chain} (h : Holds chains registers)
    (hperm : chains.Perm chains') : Holds chains' registers where
  ok c hc := h.ok c (hperm.mem_iff.mpr hc)
  perm := (hperm.flatMap_right _).symm.trans h.perm

/-- A chain is put behind another. -/
theorem Holds.merge {rest : List Chain} (h : Holds (c :: d :: rest) registers)
    (hmerge : canMerge c d = true) : Holds (c.append d :: rest) registers where
  ok e he := by
    rcases mem_cons.mp he with rfl | he
    · exact ok_append (h.ok c (by simp)) (h.ok d (by simp)) hmerge
    · exact h.ok e (by simp [he])
  perm := by
    have hperm := h.perm
    simp only [allRegisters, flatMap_cons, ← append_assoc] at hperm ⊢
    exact hperm

/-- A chain is extended at its front or at its back. -/
theorem findChain_spec {m : Modified} (visited rest : List Chain)
    (h : findChain reg visited rest = some m) :
    ∃ c, visited ++ rest = m.before ++ c :: m.after ∧
      ((m.chain = c.pushFront reg ∧ isChainable reg c.front = true ∧
          isClobbered reg c.back = false) ∨
        m.chain = c.pushBack reg ∧ isChainable c.back reg = true ∧
          isClobbered c.front reg = false) := by
  induction rest generalizing visited with
  | nil => cases h
  | cons it rest ih =>
    rw [findChain] at h
    split at h
    · rename_i hfront
      rw [Bool.and_eq_true, Bool.not_eq_true'] at hfront
      cases h
      exact ⟨it, rfl, .inl ⟨rfl, hfront⟩⟩
    · split at h
      · rename_i hback
        rw [Bool.and_eq_true, Bool.not_eq_true'] at hback
        cases h
        exact ⟨it, rfl, .inr ⟨rfl, hback⟩⟩
      · obtain ⟨c, hsplit, hc⟩ := ih (visited ++ [it]) h
        exact ⟨c, by rw [← hsplit, append_assoc]; rfl, hc⟩

/-- A register goes into a chain, or makes a new one. -/
theorem insertIntoChain_holds {chains : List Chain} (hchains : Holds chains registers)
    (reg : RegisterData) : Holds (insertIntoChain chains reg).chains (reg :: registers) := by
  unfold insertIntoChain
  cases hfind : findChain reg [] chains with
  | none =>
    refine ⟨fun c hc => ?_, hchains.perm.cons reg⟩
    rcases mem_cons.mp hc with rfl | hc
    · exact ok_singleton reg
    · exact hchains.ok c hc
  | some m =>
    obtain ⟨c, hsplit, hc⟩ := findChain_spec [] chains hfind
    rw [nil_append] at hsplit
    subst hsplit
    have hok : c.Ok := hchains.ok c (by simp)
    have hchain : m.chain.Ok ∧ m.chain.registers.Perm (reg :: c.registers) := by
      rcases hc with ⟨heq, hchainable, hclobbered⟩ | ⟨heq, hchainable, hclobbered⟩
      · rw [heq]
        exact ⟨ok_pushFront hok hchainable hclobbered, Perm.refl _⟩
      · rw [heq]
        exact ⟨ok_pushBack hok hchainable hclobbered, perm_append_comm⟩
    refine ⟨fun d hd => ?_, ?_⟩
    · rcases mem_append.mp hd with hd | hd
      · exact hchains.ok d (mem_append_left _ hd)
      · rcases mem_cons.mp hd with rfl | hd
        · exact hchain.1
        · exact hchains.ok d (mem_append_right _ (mem_cons_of_mem _ hd))
    · have hperm := hchains.perm
      simp only [getD_some, Modified.chains, allRegisters, flatMap_append, flatMap_cons] at hperm ⊢
      refine Perm.trans ?_ (hperm.cons reg)
      refine Perm.trans ((hchain.2.append_right _).append_left _) ?_
      rw [cons_append]
      exact perm_middle

/-! ### Reduction -/

/-- A chain is appended to one that can be merged with it. -/
theorem mergeBehind_spec {chains : List Chain} (h : mergeBehind d chains = some chains') :
    ∃ it rest, canMerge it d = true ∧ chains.Perm (it :: rest) ∧
      chains'.Perm (it.append d :: rest) := by
  induction chains generalizing chains' with
  | nil => cases h
  | cons it rest ih =>
    rw [mergeBehind] at h
    split at h
    · rename_i hmerge
      cases h
      exact ⟨it, rest, hmerge, Perm.refl _, Perm.refl _⟩
    · obtain ⟨rest', hrest, rfl⟩ := map_eq_some_iff.mp h
      obtain ⟨found, others, hmerge, hperm, hperm'⟩ := ih hrest
      exact ⟨found, it :: others, hmerge, (hperm.cons it).trans (Perm.swap _ _ _),
        (hperm'.cons it).trans (Perm.swap _ _ _)⟩

/-- The chain behind is taken out of the list. -/
theorem takeBehind_spec {it : Chain} {chains rest : List Chain}
    (h : takeBehind c chains = some (it, rest)) :
    canMerge c it = true ∧ chains.Perm (it :: rest) := by
  induction chains generalizing rest with
  | nil => cases h
  | cons head tail ih =>
    rw [takeBehind] at h
    split at h
    · rename_i hmerge
      cases h
      exact ⟨hmerge, Perm.refl _⟩
    · obtain ⟨⟨found, others⟩, htail, heq⟩ := map_eq_some_iff.mp h
      cases heq
      obtain ⟨hmerge, hperm⟩ := ih htail
      exact ⟨hmerge, (hperm.cons head).trans (Perm.swap _ _ _)⟩

/-- A merge of two of the chains, or none. -/
theorem reduceChains_holds {m : Modified} (hm : Holds m.chains registers) (isFrontModified : Bool) :
    Holds (reduceChains m isFrontModified) registers := by
  have hfirst : m.chains.Perm (m.chain :: (m.before ++ m.after)) := perm_middle
  unfold reduceChains
  cases isFrontModified with
  | true =>
    rw [if_pos rfl]
    cases hbefore : mergeBehind m.chain m.before with
    | some before =>
      obtain ⟨it, rest, hmerge, hperm, hperm'⟩ := mergeBehind_spec hbefore
      have hall : m.chains.Perm (it :: m.chain :: (rest ++ m.after)) :=
        (hfirst.trans ((hperm.append_right _).cons _)).trans (Perm.swap _ _ _)
      exact ((hm.permChains hall).merge hmerge).permChains (hperm'.append_right _).symm
    | none =>
      cases hafter : mergeBehind m.chain m.after with
      | some after =>
        obtain ⟨it, rest, hmerge, hperm, hperm'⟩ := mergeBehind_spec hafter
        have hall : m.chains.Perm (it :: m.chain :: (m.before ++ rest)) :=
          (hfirst.trans (((hperm.append_left _).trans perm_middle).cons _)).trans
            (Perm.swap _ _ _)
        exact ((hm.permChains hall).merge hmerge).permChains
          ((hperm'.append_left _).trans perm_middle).symm
      | none => exact hm
  | false =>
    rw [if_neg (by decide)]
    cases hbefore : takeBehind m.chain m.before with
    | some found =>
      obtain ⟨it, before⟩ := found
      obtain ⟨hmerge, hperm⟩ := takeBehind_spec hbefore
      have hall : m.chains.Perm (m.chain :: it :: (before ++ m.after)) :=
        hfirst.trans ((hperm.append_right _).cons _)
      exact ((hm.permChains hall).merge hmerge).permChains perm_middle.symm
    | none =>
      cases hafter : takeBehind m.chain m.after with
      | some found =>
        obtain ⟨it, after⟩ := found
        obtain ⟨hmerge, hperm⟩ := takeBehind_spec hafter
        have hall : m.chains.Perm (m.chain :: it :: (m.before ++ after)) :=
          hfirst.trans (((hperm.append_left _).trans perm_middle).cons _)
        exact ((hm.permChains hall).merge hmerge).permChains perm_middle.symm
      | none => exact hm

theorem insertAndReduce_holds {chains : List Chain} (hchains : Holds chains registers)
    (reg : RegisterData) : Holds (insertAndReduce chains reg) (reg :: registers) := by
  have hinsert := insertIntoChain_holds hchains reg
  unfold insertAndReduce
  dsimp only
  split
  · exact hinsert
  · exact reduceChains_holds hinsert _

theorem foldl_holds (registers : List RegisterData) {chains : List Chain}
    {done : List RegisterData} (hchains : Holds chains done) :
    Holds (registers.foldl insertAndReduce chains) (registers ++ done) := by
  induction registers generalizing chains done with
  | nil => exact hchains
  | cons reg rest ih =>
    have hrest := ih (insertAndReduce_holds hchains reg)
    exact ⟨hrest.ok, hrest.perm.trans perm_middle⟩

/-- The chains after all insertions, in any order. -/
theorem insertAll_holds (registers : List RegisterData) :
    Holds (insertAll registers) registers := by
  have hnil : Holds [] [] := ⟨by simp, Perm.refl _⟩
  have h := foldl_holds registers hnil
  rwa [append_nil] at h

/-! ### Groups of stages -/

namespace ConcurrentStageGroups

variable {numStages : Nat} {g g' : ConcurrentStageGroups} {a b : Nat}

/-- A bitmap of a number of stages, for each of them. -/
structure Sized (numStages : Nat) (g : ConcurrentStageGroups) : Prop where
  length_eq : g.concurrentStages.length = numStages
  bitmap_length : ∀ bitmap ∈ g.concurrentStages, bitmap.length = numStages

/-- Bitmaps that agree on every pair of stages. -/
structure Valid (numStages : Nat) (g : ConcurrentStageGroups) : Prop
    extends Sized numStages g where
  symm : ∀ a b, g.get a b = g.get b a

theorem get_eq (g : ConcurrentStageGroups) (a b : Nat) :
    g.get a b = derefOption (g.concurrentStages[a]?.bind fun bitmap => bitmap[b]?) := by
  rw [get]
  cases g.concurrentStages[a]? <;> rfl

theorem valid_new (numStages : Nat) : Valid numStages (new numStages) where
  length_eq := length_replicate
  bitmap_length bitmap hb := by
    rw [eq_of_mem_replicate hb, length_replicate]
  symm a b := by
    simp only [get_eq, new, getElem?_replicate]
    by_cases ha : a < numStages <;> by_cases hb : b < numStages <;>
      simp [ha, hb]

theorem get_ok (hg : Sized numStages g) (ha : a < numStages) (hb : b < numStages) :
    ∃ v, g.get a b = .ok v := by
  have hlt : a < g.concurrentStages.length := by rw [hg.length_eq]; exact ha
  have hlength := hg.bitmap_length _ (getElem_mem hlt)
  rw [get_eq, getElem?_eq_getElem hlt, bind_some, getElem?_eq_getElem (by rw [hlength]; exact hb)]
  exact ⟨_, rfl⟩

theorem sized_clear (hg : Sized numStages g) (a b : Nat) : Sized numStages (g.clear a b) where
  length_eq := (length_modify ..).trans hg.length_eq
  bitmap_length bitmap hbitmap := by
    obtain ⟨i, hi, rfl⟩ := getElem_of_mem hbitmap
    simp only [clear, getElem_modify]
    split
    · rw [length_set]
      exact hg.bitmap_length _ (getElem_mem _)
    · exact hg.bitmap_length _ (getElem_mem _)

/-- Clearing a bit of the group leaves the other bits. -/
theorem get_clear (hg : Sized numStages g) (ha : a < numStages) (hb : b < numStages) (c d : Nat) :
    (g.clear a b).get c d = if c = a ∧ d = b then .ok false else g.get c d := by
  have hlt : a < g.concurrentStages.length := by rw [hg.length_eq]; exact ha
  have hlength := hg.bitmap_length _ (getElem_mem hlt)
  simp only [get_eq, clear, getElem?_modify]
  by_cases hc : c = a
  · subst hc
    simp only [getElem?_eq_getElem hlt, if_true, true_and, Option.map_eq_map,
      map_some, bind_some, getElem?_set]
    by_cases hd : d = b
    · subst hd
      simp [hlength, hb, derefOption]
    · simp [hd, Ne.symm hd]
  · simp [hc, Ne.symm hc]

/-- A mark clears the pair in both orders, so the bitmaps still agree. -/
theorem valid_mark (hg : Valid numStages g) (h : g.markMutuallyExclusive a b = .ok g') :
    Valid numStages g' := by
  obtain ⟨_, _, h⟩ := Result.bind_eq_ok.mp h
  obtain ⟨_, hrange, h⟩ := Result.bind_eq_ok.mp h
  rw [checkThat_eq_ok, decide_eq_true_iff, hg.length_eq] at hrange
  cases h
  obtain ⟨ha, hb⟩ := hrange
  have hsized := sized_clear hg.toSized a b
  refine ⟨sized_clear hsized b a, fun c d => ?_⟩
  rw [get_clear hsized hb ha, get_clear hsized hb ha, get_clear hg.toSized ha hb,
    get_clear hg.toSized ha hb, hg.symm c d]
  by_cases hcd : c = a ∧ d = b
  · simp [hcd]
  · by_cases hdc : c = b ∧ d = a
    · simp [hdc]
    · have hcd' : ¬(d = b ∧ c = a) := fun h => hcd h.symm
      have hdc' : ¬(d = a ∧ c = b) := fun h => hdc h.symm
      simp [hcd, hdc, hcd', hdc']

theorem valid_markAll {marks : List (Nat × Nat)} (hg : Valid numStages g)
    (h : markAll marks g = .ok g') : Valid numStages g' := by
  induction marks generalizing g with
  | nil =>
    cases h
    exact hg
  | cons mark rest ih =>
    obtain ⟨next, hnext, h⟩ := Result.bind_eq_ok.mp h
    exact ih (valid_mark hg hnext) h

theorem isConcurrent_ok (hg : Valid numStages g) (ha : a < numStages) (hb : b < numStages) :
    ∃ v, g.isConcurrent a b = .ok v := by
  obtain ⟨v, hv⟩ := get_ok hg.toSized ha hb
  have hv' : g.get b a = .ok v := (hg.symm b a).trans hv
  refine ⟨v, ?_⟩
  rw [isConcurrent, hv, hv']
  cases v <;> rfl

theorem isMutuallyExclusive_ok (hg : Valid numStages g) (ha : a < numStages)
    (hb : b < numStages) : ∃ v, g.isMutuallyExclusive a b = .ok v := by
  obtain ⟨v, hv⟩ := isConcurrent_ok hg ha hb
  refine ⟨!v, ?_⟩
  rw [isMutuallyExclusive, hv]
  rfl

end ConcurrentStageGroups

/-! ### The runs of a chain -/

open ConcurrentStageGroups

/-- Two registers whose reads, and whose writes, are in mutually exclusive stages. -/
def Mutex (groups : ConcurrentStageGroups) (v w : RegisterData) : Prop :=
  groups.isMutuallyExclusive v.readStage w.readStage = .ok true ∧
    groups.isMutuallyExclusive v.writeStage w.writeStage = .ok true

/-- A register whose stages exist. -/
def InStages (numStages : Nat) (reg : RegisterData) : Prop :=
  reg.readStage < numStages ∧ reg.writeStage < numStages

section Split

variable {groups : ConcurrentStageGroups} {numStages : Nat}

/-- Two registers are only mutually exclusive as the groups say. -/
theorem isMutexWith_spec (hg : Valid numStages groups) {cur v : RegisterData}
    (hcur : InStages numStages cur) (hv : InStages numStages v) :
    ∃ r, isMutexWith groups cur v = .ok r ∧ (r = true → Mutex groups v cur) := by
  obtain ⟨reads, hreads⟩ := isMutuallyExclusive_ok hg hv.1 hcur.1
  obtain ⟨writes, hwrites⟩ := isMutuallyExclusive_ok hg hv.2 hcur.2
  rw [isMutexWith, hreads]
  cases reads with
  | false => exact ⟨false, rfl, by simp⟩
  | true =>
    refine ⟨writes, hwrites, fun h => ?_⟩
    subst h
    exact ⟨hreads, hwrites⟩

/-- A register that joins a run is exclusive with all of it. -/
theorem allMutexWith_spec (hg : Valid numStages groups) {cur : RegisterData}
    (hcur : InStages numStages cur) {run : List RegisterData}
    (hrun : ∀ v ∈ run, InStages numStages v) :
    ∃ r, allMutexWith groups cur run = .ok r ∧ (r = true → ∀ v ∈ run, Mutex groups v cur) := by
  induction run with
  | nil => exact ⟨true, rfl, by simp⟩
  | cons v rest ih =>
    obtain ⟨first, hfirst, hmutex⟩ := isMutexWith_spec hg hcur (hrun v mem_cons_self)
    rw [allMutexWith, hfirst]
    cases first with
    | false => exact ⟨false, rfl, by simp⟩
    | true =>
      obtain ⟨r, hr, hrest⟩ := ih fun w hw => hrun w (mem_cons_of_mem _ hw)
      refine ⟨r, hr, fun h w hw => ?_⟩
      rcases mem_cons.mp hw with rfl | hw
      · exact hmutex rfl
      · exact hrest h w hw

/-- Whether a run has at least two registers. -/
def isLong (run : List RegisterData) : Bool := decide (2 ≤ run.length)

/-- The runs that the loop stores: the last one, and the long ones before it. -/
def stored : List (List RegisterData) → List (List RegisterData)
  | [] => []
  | last :: closed => last :: closed.filter isLong

/-- The runs so far, with the last one first. -/
structure RunsOf (groups : ConcurrentStageGroups) (numStages : Nat)
    (runs : List (List RegisterData)) (done : List RegisterData) : Prop where
  ne_nil : ∀ run ∈ runs, run ≠ []
  mutex : ∀ run ∈ runs, run.Pairwise (Mutex groups)
  flatten : runs.reverse.flatten = done
  inStages : ∀ run ∈ runs, ∀ reg ∈ run, InStages numStages reg

theorem maybeRemoveSingleton_stored {runs : List (List RegisterData)}
    (hruns : ∀ run ∈ runs, run ≠ []) : maybeRemoveSingleton (stored runs) = runs.filter isLong := by
  cases runs with
  | nil => rfl
  | cons last closed =>
    match last, hruns last mem_cons_self with
    | [_], _ => rfl
    | _ :: _ :: _, _ => rfl

variable {runs : List (List RegisterData)} {done : List RegisterData} {cur : RegisterData}

/-- A register that starts a run. -/
theorem RunsOf.start (h : RunsOf groups numStages runs done) (hcur : InStages numStages cur) :
    RunsOf groups numStages ([cur] :: runs) (done ++ [cur]) where
  ne_nil := forall_mem_cons.mpr ⟨cons_ne_nil _ _, h.ne_nil⟩
  mutex := forall_mem_cons.mpr ⟨pairwise_singleton _ _, h.mutex⟩
  flatten := by simp [← h.flatten]
  inStages := by
    refine forall_mem_cons.mpr ⟨fun reg hreg => ?_, h.inStages⟩
    rw [mem_singleton.mp hreg]
    exact hcur

/-- A register that goes to the last run. -/
theorem RunsOf.extend {last : List RegisterData} {closed : List (List RegisterData)}
    (h : RunsOf groups numStages (last :: closed) done) (hcur : InStages numStages cur)
    (hmutex : ∀ v ∈ last, Mutex groups v cur) :
    RunsOf groups numStages ((last ++ [cur]) :: closed) (done ++ [cur]) where
  ne_nil := forall_mem_cons.mpr ⟨by simp, (forall_mem_cons.mp h.ne_nil).2⟩
  mutex := by
    obtain ⟨hlast, hclosed⟩ := forall_mem_cons.mp h.mutex
    refine forall_mem_cons.mpr ⟨?_, hclosed⟩
    refine pairwise_append.mpr ⟨hlast, pairwise_singleton _ _, fun v hv w hw => ?_⟩
    rw [mem_singleton.mp hw]
    exact hmutex v hv
  flatten := by simp [← h.flatten]
  inStages := by
    obtain ⟨hlast, hclosed⟩ := forall_mem_cons.mp h.inStages
    refine forall_mem_cons.mpr ⟨fun reg hreg => ?_, hclosed⟩
    rcases mem_append.mp hreg with hreg | hreg
    · exact hlast reg hreg
    · rw [mem_singleton.mp hreg]
      exact hcur

section

variable (hg : Valid numStages groups)
include hg

/-- A register that does not start a run is exclusive with the last one. -/
theorem startsRun_spec (h : RunsOf groups numStages runs done) (hcur : InStages numStages cur) :
    ∃ r, startsRun groups cur (stored runs) = .ok r ∧
      (r = false → ∃ last closed, runs = last :: closed ∧ ∀ v ∈ last, Mutex groups v cur) := by
  cases runs with
  | nil => exact ⟨true, rfl, by simp⟩
  | cons last closed =>
    obtain ⟨concurrent, hconcurrent⟩ := isConcurrent_ok hg hcur.2 hcur.1
    rw [stored, startsRun, hconcurrent]
    cases concurrent with
    | true => exact ⟨true, rfl, by simp⟩
    | false =>
      obtain ⟨mutex, hall, hmutex⟩ :=
        allMutexWith_spec hg hcur (h.inStages last mem_cons_self)
      refine ⟨!mutex, ?_, fun hr => ⟨last, closed, rfl, hmutex (by simpa using hr)⟩⟩
      show (do
        let mutex ← allMutexWith groups cur last
        return !mutex) = Except.ok !mutex
      rw [hall]
      rfl

/-- The loop splits a chain into runs of exclusive registers. -/
theorem splitLoop_spec (rest : List RegisterData) (h : RunsOf groups numStages runs done)
    (hrest : ∀ reg ∈ rest, InStages numStages reg) :
    ∃ runs', splitLoop groups rest (stored runs) = .ok (runs'.filter isLong) ∧
      RunsOf groups numStages runs' (done ++ rest) := by
  induction rest generalizing runs done with
  | nil =>
    refine ⟨runs, ?_, ?_⟩
    · rw [← maybeRemoveSingleton_stored h.ne_nil]
      rfl
    · rw [append_nil]
      exact h
  | cons cur rest ih =>
    obtain ⟨hcur, hrest⟩ := forall_mem_cons.mp hrest
    obtain ⟨r, hr, hmutex⟩ := startsRun_spec hg h hcur
    unfold splitLoop
    rw [hr, append_cons]
    cases r with
    | true =>
      have hnext := ih (h.start hcur) hrest
      rw [stored, ← maybeRemoveSingleton_stored h.ne_nil] at hnext
      exact hnext
    | false =>
      obtain ⟨last, closed, rfl, hlast⟩ := hmutex rfl
      exact ih (h.extend hcur hlast) hrest

/-- The runs of a chain, and the long ones, which are the result. -/
theorem splitOneChain_spec (chain : Chain)
    (hchain : ∀ reg ∈ chain.registers, InStages numStages reg) :
    ∃ segments : List (List RegisterData),
      splitOneChain groups chain = .ok (segments.filter isLong) ∧
      segments.flatten = chain.registers ∧
      ∀ segment ∈ segments, segment.Pairwise (Mutex groups) := by
  have hnil : RunsOf groups numStages [] [] := ⟨by simp, by simp, rfl, by simp⟩
  obtain ⟨runs, hloop, hruns⟩ := splitLoop_spec hg chain.registers hnil hchain
  refine ⟨runs.reverse, ?_, hruns.flatten, fun segment hsegment => ?_⟩
  · rw [splitOneChain, show [] = stored [] from rfl, hloop, filter_reverse]
    rfl
  · exact hruns.mutex segment (mem_reverse.mp hsegment)

/-- The results are runs of the chains, in the order of the chains. -/
theorem splitBetweenMutexRegions_spec (chains : List Chain)
    (hchains : ∀ reg ∈ allRegisters chains, InStages numStages reg) :
    ∃ results, splitBetweenMutexRegions groups chains = .ok results ∧
      results.flatten.Sublist (allRegisters chains) ∧
      ∀ run ∈ results, 2 ≤ run.length ∧ (∃ chain ∈ chains, run <:+: chain.registers) ∧
        run.Pairwise (Mutex groups) := by
  induction chains with
  | nil => exact ⟨[], rfl, List.Sublist.refl _, by simp⟩
  | cons chain rest ih =>
    rw [allRegisters, flatMap_cons, forall_mem_append] at hchains
    obtain ⟨segments, hsplit, hflatten, hmutex⟩ := splitOneChain_spec hg chain hchains.1
    obtain ⟨results, hrest, hsublist, hresults⟩ := ih hchains.2
    refine ⟨segments.filter isLong ++ results, ?_, ?_, fun run hrun => ?_⟩
    · rw [splitBetweenMutexRegions, hsplit, hrest]
      rfl
    · rw [flatten_append, allRegisters, flatMap_cons, ← hflatten]
      exact filter_sublist.flatten.append hsublist
    · rcases mem_append.mp hrun with hrun | hrun
      · obtain ⟨hmem, hlong⟩ := mem_filter.mp hrun
        refine ⟨of_decide_eq_true hlong, ⟨chain, mem_cons_self, ?_⟩, hmutex run hmem⟩
        rw [← hflatten]
        exact infix_of_mem_flatten hmem
      · obtain ⟨hlong, ⟨c, hc, hinfix⟩, hpairwise⟩ := hresults run hrun
        exact ⟨hlong, ⟨c, mem_cons_of_mem _ hc, hinfix⟩, hpairwise⟩

end

end Split

/-- The registers are partitioned into chains in which each follows the one before it, only
the start can be a loopback, and no register is written at or after a loopback at the start.
The runs are disjoint contiguous parts of the chains, and mutually exclusive. -/
theorem registerChains_wellFormed (registers : List RegisterData) (hdistinct : registers.Nodup)
    (marks : List (Nat × Nat)) (numStages : Nat) (groups : ConcurrentStageGroups)
    (hgroups : markAll marks (new numStages) = .ok groups)
    (hstages : ∀ reg ∈ registers, InStages numStages reg) :
    (allRegisters (insertAll registers)).Perm registers ∧
      (allRegisters (insertAll registers)).Nodup ∧
      (∀ chain ∈ insertAll registers, ∃ start rest, chain.registers = start :: rest ∧
        WellFormed start rest ∧ ∀ reg ∈ rest, ¬IsLoopback reg) ∧
      ∃ results, splitBetweenMutexRegions groups (insertAll registers) = .ok results ∧
        results.flatten.Nodup ∧ ∀ run ∈ results, 2 ≤ run.length ∧
          (∃ chain ∈ insertAll registers, run <:+: chain.registers) ∧
          run.Pairwise (Mutex groups) := by
  have hchains := insertAll_holds registers
  have hnodup : (allRegisters (insertAll registers)).Nodup := hchains.perm.nodup_iff.mpr hdistinct
  have hvalid : Valid numStages groups := valid_markAll (valid_new numStages) hgroups
  obtain ⟨results, hsplit, hsublist, hresults⟩ :=
    splitBetweenMutexRegions_spec hvalid (insertAll registers) fun reg hreg =>
      hstages reg (hchains.perm.mem_iff.mp hreg)
  refine ⟨hchains.perm, hnodup, fun chain hchain => ?_,
    results, hsplit, hnodup.sublist hsublist, hresults⟩
  obtain ⟨start, rest, hregisters⟩ := exists_cons_of_ne_nil chain.ne_nil
  have hwell := hchains.ok chain hchain start rest hregisters
  exact ⟨start, rest, hregisters, hwell, hwell.not_isLoopback⟩

/-- Three registers of one value, with the one in the middle last. -/
def threeRegisters : List RegisterData :=
  [⟨0, 10, 1, ⟨0, 9⟩, 0⟩, ⟨2, 12, 3, ⟨2, 11⟩, 2⟩, ⟨1, 11, 2, ⟨1, 10⟩, 1⟩]

/-- Four stages, of which no two are active at the same time. -/
def fourStages : ConcurrentStageGroups :=
  ⟨(range 4).map fun a => (range 4).map fun b => a == b⟩

theorem registerChains_wellFormed_threeRegisters :
    (allRegisters (insertAll threeRegisters)).Perm threeRegisters ∧
      ∃ results, splitBetweenMutexRegions fourStages (insertAll threeRegisters) = .ok results ∧
        results.flatten.Nodup ∧ ∀ run ∈ results, run.Pairwise (Mutex fourStages) := by
  obtain ⟨hperm, _, _, results, hresults, hnodup, hruns⟩ :=
    registerChains_wellFormed threeRegisters (by decide)
      [(0, 1), (0, 2), (0, 3), (1, 2), (1, 3), (2, 3)] 4 fourStages rfl
      (by unfold InStages; decide)
  exact ⟨hperm, results, hresults, hnodup, fun run hrun => (hruns run hrun).2.2⟩

example : (splitBetweenMutexRegions fourStages (insertAll threeRegisters)).map
    (·.map (·.map RegisterData.reg)) = .ok [[0, 1, 2]] := rfl

end Xls.RegisterChains
