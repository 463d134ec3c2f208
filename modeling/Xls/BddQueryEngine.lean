import Xls.BddFunction.Run
import Xls.QueryEngine

/-!
# Xls.BddQueryEngine

`xls/passes/bdd_query_engine.cc`: relations between bits, decided on the diagrams of a
function. A query adds nodes to the diagram, so the answers are about an engine after any
number of populations and earlier queries (`session_answers_sound`).
-/

namespace Xls

open Grow List

/-- `BddQueryEngine`. -/
structure BddQueryEngine where
  pathLimit : Int
  nodeFilter : Option (Nat → Bool)
  knownBits : Nat → Option Bits
  bitsValues : Nat → Option Bits
  bddFunction : Option BddFunction

namespace BddQueryEngine

/-- A new engine. -/
def create (pathLimit : Int) (nodeFilter : Option (Nat → Bool)) : BddQueryEngine :=
  ⟨pathLimit, nodeFilter, fun _ => none, fun _ => none, none⟩

/-! ### Population -/

/-- The bits whose diagram is a leaf. -/
def newKnownBits (vector : List Nat) : Bits :=
  Bits.ofBools (vector.map fun i =>
    i == BinaryDecisionDiagram.zero || i == BinaryDecisionDiagram.one)

/-- The values of the bits whose diagram is a leaf. -/
def newBitsValues (vector : List Nat) : Bits :=
  Bits.ofBools (vector.map fun i => i == BinaryDecisionDiagram.one)

/-- What was known or'ed with what is found now. -/
def oredWith (old : Option Bits) (new : Bits) : Bits := (old.getD (Bits.zero new.width)).or new

/-- The entry of a node after population, if it is of a bits type. -/
def updated (old : Nat → Option Bits) (new : List Nat → Bits) (nodeMap : List (Option (List Nat)))
    (node : Nat) : Option Bits :=
  match nodeMap[node]? with
  | some (some vector) => some (oredWith (old node) (new vector))
  | _ => old node

/-- `Populate`. -/
def populate (e : BddQueryEngine) (f : Function) : Result (ReachedFixpoint × BddQueryEngine) := do
  let bf ← BddFunction.run f e.pathLimit e.nodeFilter
  let knownBits := updated e.knownBits newKnownBits bf.nodeMap
  let bitsValues := updated e.bitsValues newBitsValues bf.nodeMap
  let changed := (List.range bf.nodeMap.length).any fun node =>
    match bf.nodeMap[node]? with
    | some (some vector) =>
      knownBits node != some ((e.knownBits node).getD (Bits.zero vector.length)) ||
        bitsValues node != some ((e.bitsValues node).getD (Bits.zero vector.length))
    | _ => false
  return (if changed then .changed else .unchanged,
    { e with knownBits := knownBits, bitsValues := bitsValues, bddFunction := some bf })

/-- `IsTracked`. -/
def isTracked (e : BddQueryEngine) (node : Nat) : Bool := (e.knownBits node).isSome

/-! ### Queries -/

section Queries

variable (e : BddQueryEngine) (bf : BddFunction)

/-- `GetBddNode`. -/
def getBddNode (l : TreeBitLocation) : EvalM BddState Nat :=
  if l.treeIndex = [] then
    match bf.nodeMap[l.node]? with
    | some (some vector) =>
      match vector[l.bitIndex]? with
      | some i => pure i
      | none => fail .check
    | _ => fail .check
  else fail .check

/-- `ExceedsPathLimit`. -/
def exceedsPathLimit (i : Nat) : EvalM BddState Bool :=
  if 0 < e.pathLimit then do
    let count ← BddState.pathCount i
    return decide (e.pathLimit < count)
  else return false

/-- Every element with each of those after it. -/
def pairs {α : Type} : List α → List (α × α)
  | [] => []
  | a :: as => as.map (fun b => (a, b)) ++ pairs as

/-- The two loops of `AtMostOneTrue`; nothing if the path limit is exceeded. -/
def orOfAnds : Nat → List (TreeBitLocation × TreeBitLocation) → EvalM BddState (Option Nat)
  | result, [] => return some result
  | result, (a, b) :: rest => do
    let x ← getBddNode bf a
    let y ← getBddNode bf b
    let both ← BddState.and x y
    let result ← BddState.or result both
    if ← e.exceedsPathLimit result then return none
    else orOfAnds result rest

/-- `AtMostOneTrue`. -/
def atMostOneTrue (bits : List TreeBitLocation) : EvalM BddState Bool :=
  if 64 < bits.length then return false
  else if bits.any fun l => !e.isTracked l.node then return false
  else do
    let result ← orOfAnds e bf BinaryDecisionDiagram.zero (pairs bits)
    return result == some BinaryDecisionDiagram.zero

/-- The loop of `AtLeastOneTrue`; nothing if a node is not tracked or the path limit
is exceeded. -/
def orOfBits : Nat → List TreeBitLocation → EvalM BddState (Option Nat)
  | result, [] => return some result
  | result, l :: rest =>
    if !e.isTracked l.node then return none
    else do
      let x ← getBddNode bf l
      let result ← BddState.or result x
      if ← e.exceedsPathLimit result then return none
      else orOfBits result rest

/-- `AtLeastOneTrue`. -/
def atLeastOneTrue (bits : List TreeBitLocation) : EvalM BddState Bool := do
  let result ← orOfBits e bf BinaryDecisionDiagram.zero bits
  return result == some BinaryDecisionDiagram.one

/-- `Implies` on indices: `!(A && !B)`. -/
def impliesIndex (a b : Nat) : EvalM BddState Bool := do
  let notB ← BddState.not b
  let result ← BddState.and a notB
  return result == BinaryDecisionDiagram.zero

/-- `Implies`. -/
def implies (a b : TreeBitLocation) : EvalM BddState Bool :=
  if !e.isTracked a.node || !e.isTracked b.node then return false
  else do
    let x ← getBddNode bf a
    let y ← getBddNode bf b
    impliesIndex x y

/-- The index, or its negation. -/
def qualified (i : Nat) (value : Bool) : EvalM BddState Nat :=
  if value then return i else BddState.not i

/-- The conjunction of the predicate bits. -/
def conjunction : Nat → List (TreeBitLocation × Bool) → EvalM BddState Nat
  | result, [] => return result
  | result, (l, value) :: rest => do
    let x ← getBddNode bf l
    let x ← qualified x value
    let result ← BddState.and result x
    conjunction result rest

/-- The bits that the predicate implies; nothing if it does not imply one of them. -/
def impliedBits (predicate : Nat) : List Nat → EvalM BddState (Option (List Bool))
  | [] => return some []
  | i :: is => do
    let x ← qualified i true
    if ← impliesIndex predicate x then do
      let rest ← impliedBits predicate is
      return rest.map (true :: ·)
    else do
      let x ← qualified i false
      if ← impliesIndex predicate x then do
        let rest ← impliedBits predicate is
        return rest.map (false :: ·)
      else return none

/-- `ImpliedNodeValue`. -/
def impliedNodeValue (predicates : List (TreeBitLocation × Bool)) (node : Nat) :
    EvalM BddState (Option Bits) :=
  match e.isTracked node, bf.nodeMap[node]? with
  | true, some (some vector) => do
    let predicate ← conjunction bf BinaryDecisionDiagram.one predicates
    if predicate == BinaryDecisionDiagram.zero then return none
    else do
      let bits ← impliedBits predicate vector
      return bits.map Bits.ofBools
  | _, _ => return none

/-- `KnownEquals`. -/
def knownEquals (a b : TreeBitLocation) : EvalM BddState Bool :=
  if !e.isTracked a.node || !e.isTracked b.node then return false
  else do
    let x ← getBddNode bf a
    let y ← getBddNode bf b
    return x == y

/-- `KnownNotEquals`. -/
def knownNotEquals (a b : TreeBitLocation) : EvalM BddState Bool :=
  if !e.isTracked a.node || !e.isTracked b.node then return false
  else do
    let x ← getBddNode bf a
    let y ← getBddNode bf b
    let notY ← BddState.not y
    return x == notY

end Queries

/-- A query of the engine. -/
inductive Query
  | atMostOneTrue (bits : List TreeBitLocation)
  | atLeastOneTrue (bits : List TreeBitLocation)
  | implies (a b : TreeBitLocation)
  | impliedNodeValue (predicates : List (TreeBitLocation × Bool)) (node : Nat)
  | knownEquals (a b : TreeBitLocation)
  | knownNotEquals (a b : TreeBitLocation)

/-- An answer of the engine. -/
inductive Answer
  | truth (b : Bool)
  | value (v : Option Bits)
  deriving DecidableEq

/-- The computation of a query. -/
def compute (e : BddQueryEngine) (bf : BddFunction) : Query → EvalM BddState Answer
  | .atMostOneTrue bits => do return .truth (← e.atMostOneTrue bf bits)
  | .atLeastOneTrue bits => do return .truth (← e.atLeastOneTrue bf bits)
  | .implies a b => do return .truth (← e.implies bf a b)
  | .impliedNodeValue predicates node => do
    return .value (← e.impliedNodeValue bf predicates node)
  | .knownEquals a b => do return .truth (← e.knownEquals bf a b)
  | .knownNotEquals a b => do return .truth (← e.knownNotEquals bf a b)

/-- Answer a query; the diagram grows. -/
def answer (e : BddQueryEngine) (q : Query) : Result (Answer × BddQueryEngine) := do
  let bf ← derefOption e.bddFunction
  let (a, s) ← (e.compute bf q).run bf.bdd
  return (a, { e with bddFunction := some { bf with bdd := s } })

/-- What an answer says of the values of a run. -/
def Query.Correct (vals : List Value) : Query → Answer → Prop
  | .atMostOneTrue bits, .truth true =>
    bits.Pairwise fun a b => ¬(a.bitIn vals = some true ∧ b.bitIn vals = some true)
  | .atLeastOneTrue bits, .truth true => ∃ l ∈ bits, l.bitIn vals = some true
  | .implies a b, .truth true => a.bitIn vals = some true → b.bitIn vals = some true
  | .impliedNodeValue predicates node, .value (some b) =>
    (∀ p ∈ predicates, p.1.bitIn vals = some p.2) → vals[node]? = some (.leaf b)
  | .knownEquals a b, .truth true => ∃ bit, a.bitIn vals = some bit ∧ b.bitIn vals = some bit
  | .knownNotEquals a b, .truth true => ∃ bit, a.bitIn vals = some bit ∧ b.bitIn vals = some !bit
  | _, _ => True

/-! ### Soundness of the queries -/

variable {σ : Nat → Bool} {e : BddQueryEngine} {vals : List Value}

theorem denotes_unique {F : BddState} {i : Nat} {b b' : Bool} (h : F.Denotes σ i b)
    (h' : F.Denotes σ i b') : b = b' :=
  h.2.symm.trans h'.2

section Soundness

variable {e : BddQueryEngine} {bf : BddFunction} {F : BddState} {σ : Nat → Bool} {vals : List Value}

/-- The index of a bit of a node denotes that bit in the run. -/
theorem getBddNode_denotes
    (hmap : Forall₂ (BddFunction.VectorStands F σ) bf.nodeMap vals) {l : TreeBitLocation}
    {i : Nat} (hr : Grow.Returns F (getBddNode bf l) i) :
    ∃ bit, l.bitIn vals = some bit ∧ F.Denotes σ i bit := by
  unfold getBddNode at hr
  split at hr
  rotate_left
  · exact (not_returns_fail hr).elim
  rename_i htree
  split at hr
  rotate_left
  · exact (not_returns_fail hr).elim
  rename_i vector hvector
  split at hr
  rotate_left
  · exact (not_returns_fail hr).elim
  rename_i j hj
  obtain ⟨v, hv, hstands⟩ := LeafTree.rel_getElem?_right hmap.flip hvector
  obtain ⟨b, rfl, hbits⟩ := hstands vector rfl
  obtain ⟨bit, hbit, hden⟩ := LeafTree.rel_getElem?_right hbits.flip hj
  rw [returns_pure hr]
  refine ⟨bit, ?_, hden⟩
  simp [TreeBitLocation.bitIn, TreeBitLocation.bitOf, hv, htree, LeafTree.get?, LeafTree.leaf?,
    hbit]

variable {r k : Nat} {bits : List TreeBitLocation} {predicates : List (TreeBitLocation × Bool)}

/-- The disjunction of the conjunctions: if it is false, no pair is true together. -/
theorem orOfAnds_denotes (hmap : Forall₂ (BddFunction.VectorStands F σ) bf.nodeMap vals)
    {ps : List (TreeBitLocation × TreeBitLocation)} {b : Bool} (hr : F.Denotes σ r b)
    (h : Grow.Returns F (orOfAnds e bf r ps) (some k)) :
    ∃ bit, F.Denotes σ k bit ∧ (bit = false → b = false ∧
      ∀ p ∈ ps, ¬(p.1.bitIn vals = some true ∧ p.2.bitIn vals = some true)) := by
  induction ps generalizing r b with
  | nil =>
    cases returns_pure h
    exact ⟨b, hr, fun hb => ⟨hb, by simp⟩⟩
  | cons p ps ih =>
    obtain ⟨x, hx, h⟩ := returns_bind h
    obtain ⟨y, hy, h⟩ := returns_bind h
    obtain ⟨both, hboth, h⟩ := returns_bind h
    obtain ⟨r', hr', h⟩ := returns_bind h
    obtain ⟨exceeded, -, h⟩ := returns_bind h
    obtain ⟨bitX, hbitX, hdenX⟩ := getBddNode_denotes hmap hx
    obtain ⟨bitY, hbitY, hdenY⟩ := getBddNode_denotes hmap hy
    have hdenBoth := BddState.returns_and hdenX hdenY hboth
    split at h
    · cases returns_pure h
    · obtain ⟨bit, hbit, hfalse⟩ := ih (BddState.returns_or hr hdenBoth hr') h
      refine ⟨bit, hbit, fun hb => ?_⟩
      obtain ⟨hor, hall⟩ := hfalse hb
      rw [Bool.or_eq_false_iff] at hor
      refine ⟨hor.1, forall_mem_cons.2 ⟨?_, hall⟩⟩
      rintro ⟨h1, h2⟩
      rw [hbitX] at h1
      rw [hbitY] at h2
      cases h1
      cases h2
      cases hor.2

theorem pairwise_of_pairs {α : Type} {R : α → α → Prop} {l : List α}
    (h : ∀ p ∈ pairs l, R p.1 p.2) : l.Pairwise R := by
  induction l with
  | nil => exact List.Pairwise.nil
  | cons a as ih =>
    refine List.Pairwise.cons (fun b hb => ?_) (ih fun p hp => ?_)
    · exact h (a, b) (mem_append_left _ (mem_map.2 ⟨b, hb, rfl⟩))
    · exact h p (mem_append_right _ hp)

section

variable (hmap : Forall₂ (BddFunction.VectorStands F σ) bf.nodeMap vals)
include hmap

/-- A true answer says that no two of the bits are one in the run. -/
theorem atMostOneTrue_correct (h : Grow.Returns F (e.atMostOneTrue bf bits) true) :
    bits.Pairwise fun a b => ¬(a.bitIn vals = some true ∧ b.bitIn vals = some true) := by
  unfold atMostOneTrue at h
  split at h
  · cases returns_pure h
  split at h
  · cases returns_pure h
  obtain ⟨result, hresult, h⟩ := returns_bind h
  have hzero := (beq_iff_eq.1 (returns_pure h).symm)
  rw [hzero] at hresult
  obtain ⟨bit, hbit, hfalse⟩ := orOfAnds_denotes hmap (F.denotes_zero σ) hresult
  exact pairwise_of_pairs (hfalse (denotes_unique hbit (F.denotes_zero σ))).2

/-- The disjunction of bits: if it is true, one of them is. -/
theorem orOfBits_denotes {ls : List TreeBitLocation} {b : Bool} (hr : F.Denotes σ r b)
    (h : Grow.Returns F (orOfBits e bf r ls) (some k)) :
    ∃ bit, F.Denotes σ k bit ∧ (bit = true → b = true ∨ ∃ l ∈ ls, l.bitIn vals = some true) := by
  induction ls generalizing r b with
  | nil =>
    cases returns_pure h
    exact ⟨b, hr, fun hb => .inl hb⟩
  | cons l ls ih =>
    unfold orOfBits at h
    split at h
    · cases returns_pure h
    obtain ⟨x, hx, h⟩ := returns_bind h
    obtain ⟨r', hr', h⟩ := returns_bind h
    obtain ⟨exceeded, -, h⟩ := returns_bind h
    obtain ⟨bitX, hbitX, hdenX⟩ := getBddNode_denotes hmap hx
    split at h
    · cases returns_pure h
    · obtain ⟨bit, hbit, htrue⟩ := ih (BddState.returns_or hr hdenX hr') h
      refine ⟨bit, hbit, fun hb => ?_⟩
      rcases htrue hb with hor | ⟨l', hl', hval⟩
      · rw [Bool.or_eq_true] at hor
        rcases hor with hor | rfl
        · exact .inl hor
        · exact .inr ⟨l, mem_cons_self, hbitX⟩
      · exact .inr ⟨l', mem_cons_of_mem _ hl', hval⟩

theorem atLeastOneTrue_correct (h : Grow.Returns F (e.atLeastOneTrue bf bits) true) :
    ∃ l ∈ bits, l.bitIn vals = some true := by
  obtain ⟨result, hresult, h⟩ := returns_bind h
  have hone := (beq_iff_eq.1 (returns_pure h).symm)
  rw [hone] at hresult
  obtain ⟨bit, hbit, htrue⟩ := orOfBits_denotes hmap (F.denotes_zero σ) hresult
  rcases htrue (denotes_unique hbit (F.denotes_one σ)) with hfalse | hex
  · cases hfalse
  · exact hex

end

/-- The implication of two indices, decided by the diagram. -/
theorem impliesIndex_correct {a b : Nat} {x y : Bool} (ha : F.Denotes σ a x)
    (hb : F.Denotes σ b y) (h : Grow.Returns F (impliesIndex a b) true) : x = true → y = true := by
  obtain ⟨notB, hnot, h⟩ := returns_bind h
  obtain ⟨result, hresult, h⟩ := returns_bind h
  have hzero := (beq_iff_eq.1 (returns_pure h).symm)
  rw [hzero] at hresult
  have hand := BddState.returns_and ha (BddState.returns_not hb hnot) hresult
  have hfalse := denotes_unique hand (F.denotes_zero σ)
  rintro rfl
  cases y with
  | false => cases hfalse
  | true => rfl

variable {a b : TreeBitLocation}

/-- A true answer says that the first bit implies the second in the run. -/
theorem implies_correct (hmap : Forall₂ (BddFunction.VectorStands F σ) bf.nodeMap vals)
    (h : Grow.Returns F (e.implies bf a b) true) :
    a.bitIn vals = some true → b.bitIn vals = some true := by
  unfold implies at h
  split at h
  · cases returns_pure h
  obtain ⟨x, hx, h⟩ := returns_bind h
  obtain ⟨y, hy, h⟩ := returns_bind h
  obtain ⟨bitX, hbitX, hdenX⟩ := getBddNode_denotes hmap hx
  obtain ⟨bitY, hbitY, hdenY⟩ := getBddNode_denotes hmap hy
  intro ha
  rw [hbitX] at ha
  cases ha
  rw [hbitY, impliesIndex_correct hdenX hdenY h rfl]

/-- A bit compared with a constant. -/
theorem qualified_denotes {i : Nat} {b value : Bool} (hi : F.Denotes σ i b)
    (h : Grow.Returns F (qualified i value) r) : F.Denotes σ r (b == value) := by
  unfold qualified at h
  split at h
  · rename_i hvalue
    rw [returns_pure h, hvalue, show (b == true) = b by cases b <;> rfl]
    exact hi
  · rename_i hvalue
    rw [Bool.not_eq_true] at hvalue
    rw [hvalue, show (b == false) = !b by cases b <;> rfl]
    exact BddState.returns_not hi h

/-- The conjunction of the predicates holds in a run that meets them all. -/
theorem conjunction_denotes (hmap : Forall₂ (BddFunction.VectorStands F σ) bf.nodeMap vals)
    {b : Bool} (hr : F.Denotes σ r b) (h : Grow.Returns F (conjunction bf r predicates) k) :
    ∃ bit, F.Denotes σ k bit ∧
      (b = true → (∀ p ∈ predicates, p.1.bitIn vals = some p.2) → bit = true) := by
  induction predicates generalizing r b with
  | nil =>
    cases returns_pure h
    exact ⟨b, hr, fun hb _ => hb⟩
  | cons p predicates ih =>
    obtain ⟨x, hx, h⟩ := returns_bind h
    obtain ⟨x', hx', h⟩ := returns_bind h
    obtain ⟨r', hr', h⟩ := returns_bind h
    obtain ⟨bitX, hbitX, hdenX⟩ := getBddNode_denotes hmap hx
    obtain ⟨bit, hbit, htrue⟩ :=
      ih (BddState.returns_and hr (qualified_denotes hdenX hx') hr') h
    refine ⟨bit, hbit, fun hb hall => htrue ?_ (forall_mem_cons.1 hall).2⟩
    have hp := (forall_mem_cons.1 hall).1
    rw [hbitX] at hp
    cases hp
    simp [hb]

/-- The bits that a predicate true in the run implies are those of the node. -/
theorem impliedBits_correct {predicate : Nat} (hp : F.Denotes σ predicate true) {is : List Nat}
    {bits bs : List Bool} (his : Forall₂ (F.Denotes σ) is bits)
    (h : Grow.Returns F (impliedBits predicate is) (some bs)) : bs = bits := by
  induction his generalizing bs with
  | nil =>
    cases returns_pure h
    rfl
  | cons hi _ ih =>
    obtain ⟨x, hx, h⟩ := returns_bind h
    obtain ⟨implied, himplied, h⟩ := returns_bind h
    split at h
    · rename_i htrue
      rw [htrue] at himplied
      obtain ⟨rest, hrest, h⟩ := returns_bind h
      have heq := (returns_pure h).symm
      rw [Option.map_eq_some_iff] at heq
      obtain ⟨tail, rfl, rfl⟩ := heq
      have hbit := impliesIndex_correct hp (qualified_denotes hi hx) himplied rfl
      rw [ih hrest, beq_iff_eq.1 hbit]
    · obtain ⟨x', hx', h⟩ := returns_bind h
      obtain ⟨implied', himplied', h⟩ := returns_bind h
      split at h
      · rename_i htrue
        rw [htrue] at himplied'
        obtain ⟨rest, hrest, h⟩ := returns_bind h
        have heq := (returns_pure h).symm
        rw [Option.map_eq_some_iff] at heq
        obtain ⟨tail, rfl, rfl⟩ := heq
        have hbit := impliesIndex_correct hp (qualified_denotes hi hx') himplied' rfl
        rw [ih hrest, beq_iff_eq.1 hbit]
      · cases returns_pure h

section

variable (hmap : Forall₂ (BddFunction.VectorStands F σ) bf.nodeMap vals)
include hmap

/-- A node value that is implied is the value of the node in each run that meets the predicates. -/
theorem impliedNodeValue_correct {node : Nat} {b : Bits}
    (h : Grow.Returns F (e.impliedNodeValue bf predicates node) (some b))
    (hall : ∀ p ∈ predicates, p.1.bitIn vals = some p.2) : vals[node]? = some (.leaf b) := by
  unfold impliedNodeValue at h
  split at h
  rotate_left
  · cases returns_pure h
  rename_i vector htracked hvector
  obtain ⟨predicate, hpred, h⟩ := returns_bind h
  split at h
  · cases returns_pure h
  obtain ⟨bits, hbits, h⟩ := returns_bind h
  have heq := (returns_pure h).symm
  rw [Option.map_eq_some_iff] at heq
  obtain ⟨bs, rfl, rfl⟩ := heq
  obtain ⟨bit, hbit, htrue⟩ := conjunction_denotes hmap (F.denotes_one σ) hpred
  rw [htrue rfl hall] at hbit
  obtain ⟨v, hv, hstands⟩ := LeafTree.rel_getElem?_right hmap.flip hvector
  obtain ⟨c, rfl, hc⟩ := hstands vector rfl
  rw [hv, impliedBits_correct hbit hc hbits, Bits.ofBools_toBools]

/-- Bits known to be equal are equal in the run. -/
theorem knownEquals_correct (h : Grow.Returns F (e.knownEquals bf a b) true) :
    ∃ bit, a.bitIn vals = some bit ∧ b.bitIn vals = some bit := by
  unfold knownEquals at h
  split at h
  · cases returns_pure h
  obtain ⟨x, hx, h⟩ := returns_bind h
  obtain ⟨y, hy, h⟩ := returns_bind h
  obtain ⟨bitX, hbitX, hdenX⟩ := getBddNode_denotes hmap hx
  obtain ⟨bitY, hbitY, hdenY⟩ := getBddNode_denotes hmap hy
  rw [← beq_iff_eq.1 (returns_pure h).symm] at hdenY
  refine ⟨bitX, hbitX, ?_⟩
  rw [hbitY, denotes_unique hdenY hdenX]

/-- Bits known to be different are different in the run. -/
theorem knownNotEquals_correct (h : Grow.Returns F (e.knownNotEquals bf a b) true) :
    ∃ bit, a.bitIn vals = some bit ∧ b.bitIn vals = some !bit := by
  unfold knownNotEquals at h
  split at h
  · cases returns_pure h
  obtain ⟨x, hx, h⟩ := returns_bind h
  obtain ⟨y, hy, h⟩ := returns_bind h
  obtain ⟨notY, hnot, h⟩ := returns_bind h
  obtain ⟨bitX, hbitX, hdenX⟩ := getBddNode_denotes hmap hx
  obtain ⟨bitY, hbitY, hdenY⟩ := getBddNode_denotes hmap hy
  have hdenNot := BddState.returns_not hdenY hnot
  rw [← beq_iff_eq.1 (returns_pure h).symm] at hdenNot
  refine ⟨bitX, hbitX, ?_⟩
  rw [hbitY, denotes_unique hdenX hdenNot, Bool.not_not]

/-- Every answer is correct for a run whose values the vectors stand for. -/
theorem compute_correct {q : Query} {a : Answer} (h : Grow.Returns F (e.compute bf q) a) :
    q.Correct vals a := by
  cases q with
  | atMostOneTrue bits =>
    obtain ⟨b, hb, h⟩ := returns_bind h
    rw [returns_pure h]
    cases b with
    | false => trivial
    | true => exact atMostOneTrue_correct hmap hb
  | atLeastOneTrue bits =>
    obtain ⟨b, hb, h⟩ := returns_bind h
    rw [returns_pure h]
    cases b with
    | false => trivial
    | true => exact atLeastOneTrue_correct hmap hb
  | implies x y =>
    obtain ⟨b, hb, h⟩ := returns_bind h
    rw [returns_pure h]
    cases b with
    | false => trivial
    | true => exact implies_correct hmap hb
  | impliedNodeValue predicates node =>
    obtain ⟨v, hv, h⟩ := returns_bind h
    rw [returns_pure h]
    cases v with
    | none => trivial
    | some b => exact impliedNodeValue_correct hmap hv
  | knownEquals x y =>
    obtain ⟨b, hb, h⟩ := returns_bind h
    rw [returns_pure h]
    cases b with
    | false => trivial
    | true => exact knownEquals_correct hmap hb
  | knownNotEquals x y =>
    obtain ⟨b, hb, h⟩ := returns_bind h
    rw [returns_pure h]
    cases b with
    | false => trivial
    | true => exact knownNotEquals_correct hmap hb

end

end Soundness

/-! ### Sessions -/

/-- The engines that populations for a function and queries lead to. -/
inductive Session (f : Function) : BddQueryEngine → Prop
  | created (pathLimit : Int) (nodeFilter : Option (Nat → Bool)) :
      Session f (create pathLimit nodeFilter)
  | populated {e e' : BddQueryEngine} {rf : ReachedFixpoint} (he : Session f e)
      (h : e.populate f = .ok (rf, e')) : Session f e'
  | answered {e e' : BddQueryEngine} {q : Query} {a : Answer} (he : Session f e)
      (h : e.answer q = .ok (a, e')) : Session f e'

/-- The vectors of the engine stand for the values of a run. -/
def StandsFor (e : BddQueryEngine) (vals : List Value) : Prop :=
  ∀ bf, e.bddFunction = some bf →
    ∃ σ, Forall₂ (BddFunction.VectorStands bf.bdd σ) bf.nodeMap vals

/-- What the vectors stand for does not change when the diagram grows. -/
theorem vectorStands_mono {s t : BddState} (hst : s ≤ t) {vector : Option (List Nat)} {v : Value}
    (h : BddFunction.VectorStands s σ vector v) : BddFunction.VectorStands t σ vector v := by
  intro is his
  obtain ⟨b, hb, hbits⟩ := h is his
  refine ⟨b, hb, hbits.imp fun i bit hi => ⟨hi.1.mono hst.1, ?_⟩⟩
  rw [BddState.denote_mono hst.1 hi.1, hi.2]

/-- A query is answered correctly, and leaves the engine as sound as it was. -/
theorem answer_step {e' : BddQueryEngine} (he : e.StandsFor vals) {q : Query} {a : Answer}
    (h : e.answer q = .ok (a, e')) : q.Correct vals a ∧ e'.StandsFor vals := by
  obtain ⟨bf, hbf, h⟩ := Result.bind_eq_ok.1 h
  obtain ⟨⟨a', s⟩, hrun, h⟩ := Result.bind_eq_ok.1 h
  cases h
  rw [derefOption_eq_ok] at hbf
  obtain ⟨σ, hmap⟩ := he bf hbf
  have hle : bf.bdd ≤ s := Grow.mono _ _ _ _ hrun
  have hmap' := hmap.imp fun _ _ hv => vectorStands_mono hle hv
  refine ⟨compute_correct hmap' (returns_of_run hrun (le_refl s)), ?_⟩
  rintro bf' ⟨⟩
  exact ⟨σ, hmap'⟩

/-- Whatever was asked before, the engine stands for the values of every run. -/
theorem session_standsFor {env : Env} {f : Function} {args : List Value}
    (hrun : Interpreter.run env f args = .ok vals) (he : Session f e) : e.StandsFor vals := by
  induction he with
  | created pathLimit nodeFilter =>
    intro bf hbf
    cases hbf
  | populated _ h _ =>
    obtain ⟨bf, hbf, h⟩ := Result.bind_eq_ok.1 h
    cases h
    rintro bf' ⟨⟩
    exact BddFunction.run_stands hrun hbf
  | answered _ h ih => exact (answer_step ih h).2

/-- The answers of the engine hold in every run of the function: whenever it answers
true to a query about bits, the relation holds of the bits of the run, and an implied
value is the value of the node if the predicate bits have the given values. -/
theorem session_answers_sound {env : Env} {f : Function} {args vals : List Value}
    (hrun : Interpreter.run env f args = .ok vals) {e e' : BddQueryEngine} (he : Session f e)
    {q : Query} {a : Answer} (h : e.answer q = .ok (a, e')) : q.Correct vals a :=
  (answer_step (session_standsFor hrun he) h).1

/-- The negation of the upper bit of a parameter. -/
def upperBitNegated : Function where
  params := [.bits 2]
  nodes := [⟨.param 0, [], .bits 2⟩, ⟨.bitSlice 1 1, [0], .bits 1⟩, ⟨.un .not, [1], .bits 1⟩]
  returnValue := 2
  verified := by decide
  returnValue_lt := by decide

/-- The engine populated from `upperBitNegated`. -/
def upperBitEngine : BddQueryEngine :=
  match (create 0 none).populate upperBitNegated with
  | .ok (_, e) => e
  | .error _ => create 0 none

/-- The engine after it was asked whether the bit and its negation differ. -/
def upperBitAnswered : BddQueryEngine :=
  match upperBitEngine.answer (.knownNotEquals ⟨0, 1, []⟩ ⟨2, 0, []⟩) with
  | .ok (_, e) => e
  | .error _ => upperBitEngine

theorem session_answers_sound_upperBit :
    upperBitEngine.answer (.knownNotEquals ⟨0, 1, []⟩ ⟨2, 0, []⟩) =
        .ok (.truth true, upperBitAnswered) ∧ (Query.knownNotEquals ⟨0, 1, []⟩ ⟨2, 0, []⟩).Correct
        [.leaf (Bits.ofNat 2 2), .leaf (Bits.ofNat 1 1), .leaf (Bits.ofNat 1 0)] (.truth true) := by
  have hrun : Interpreter.run (Interpreter.packageEnv []) upperBitNegated
      [.leaf (Bits.ofNat 2 2)] =
        .ok [.leaf (Bits.ofNat 2 2), .leaf (Bits.ofNat 1 1), .leaf (Bits.ofNat 1 0)] := rfl
  have hpop : (create 0 none).populate upperBitNegated = .ok (.unchanged, upperBitEngine) := rfl
  have hanswer : upperBitEngine.answer (.knownNotEquals ⟨0, 1, []⟩ ⟨2, 0, []⟩) =
      .ok (.truth true, upperBitAnswered) := rfl
  exact ⟨hanswer, session_answers_sound hrun (.populated (.created 0 none) hpop) hanswer⟩

end BddQueryEngine

end Xls
