import Xls.IntervalSet

/-!
# Xls.IntervalSet.Intersect

`IntervalSet::Intersect`, `Complement` and `Disjoint`.

`Intersect` walks two `std::list`s with one iterator each. When the interval
that ends first overlaps the other one, what is left of the other one is
inserted *before* it, so the lists grow while they are walked and stale
intervals stay behind the insertion. The proof follows a frontier: every point
below it is settled, an interval that ends below it is *dead*, and the walk
never inserts anything on account of a dead interval. That gives both the points
of the result and a bound on the number of rounds.
-/

namespace Xls.IntervalSet

open ProperInterval List Or Bool
open ProperInterval (Mem)

variable {w : Nat}

/-- The walk of `Intersect`. `none` means that the given number of rounds was
not enough (`intersectLoop_spec` shows that it always is). -/
def intersectLoop : Nat → List (ProperInterval w) → List (ProperInterval w) →
    List (ProperInterval w) → Option (List (ProperInterval w))
  | _, [], _, acc => some acc
  | _, _ :: _, [], acc => some acc
  | 0, _ :: _, _ :: _, _ => none
  | fuel + 1, l :: ls, r :: rs, acc =>
    if l.upper < r.upper then
      match l.intersect r with
      | some m => intersectLoop fuel ls (r.difference l ++ r :: rs) (acc ++ [m])
      | none => intersectLoop fuel ls (r :: rs) acc
    else if r.upper < l.upper then
      match l.intersect r with
      | some m => intersectLoop fuel (l.difference r ++ l :: ls) rs (acc ++ [m])
      | none => intersectLoop fuel (l :: ls) rs acc
    else
      match l.intersect r with
      | some m => intersectLoop fuel ls rs (acc ++ [m])
      | none => intersectLoop fuel ls rs acc

/-- The number of rounds the walk can take. -/
def intersectFuel (l r : List (ProperInterval w)) : Nat := 3 * (l.length + r.length)

/-- `IntervalSet::Intersect`. -/
def intersect (l r : IntervalSet w) : IntervalSet w :=
  match intersectLoop (intersectFuel l.intervals r.intervals) l.intervals r.intervals [] with
  | some acc => normalize (acc.map (·.toInterval))
  | none => empty w

/-! ### One side of the walk -/

/-- The points of a list of intervals. -/
def Points (l : List (ProperInterval w)) (x : Nat) : Prop := ∃ i ∈ l, Mem x i

/-- The first interval that reaches the frontier starts at it or beyond it. -/
def FirstLive (f : Nat) : List (ProperInterval w) → Prop
  | [] => True
  | a :: l => if a.upper < f then FirstLive f l else f ≤ a.lower

/-- One list of the walk at frontier `f`, where `o` is the list it started as. -/
structure Side (o : List (ProperInterval w)) (f : Nat) (l : List (ProperInterval w)) : Prop where
  sep : l.Pairwise fun a b => f ≤ a.upper → a.upper < b.lower ∨ (a.upper = b.upper ∧ a.lower ≤ f)
  first : FirstLive f l
  uppers : ∀ a ∈ l, f ≤ a.upper → ∃ b ∈ o, b.upper = a.upper
  sub : ∀ a ∈ l, ∀ x, Mem x a → Points o x
  keep : ∀ x, f ≤ x → Points o x → Points l x

/-- How many of the original intervals still reach the frontier. -/
def live (f : Nat) (o : List (ProperInterval w)) : Nat := o.countP fun a => decide (f ≤ a.upper)

variable {f x : Nat} {l r m : ProperInterval w}

theorem live_mono {g : Nat} (h : f ≤ g) (o : List (ProperInterval w)) : live g o ≤ live f o := by
  refine countP_mono_left fun a _ ha => ?_
  simp only [decide_eq_true_eq] at ha ⊢
  omega

variable {o rs acc : List (ProperInterval w)} {s : IntervalSet w}

/-- Moving the frontier past the end of an original interval leaves fewer of
them alive. -/
theorem live_lt {b : ProperInterval w} (hb : b ∈ o) (hf : f ≤ b.upper) :
    live (b.upper + 1) o < live f o := by
  induction o with
  | nil => simp at hb
  | cons a t ih =>
    have hmono := live_mono (show f ≤ b.upper + 1 by omega) t
    simp only [live, countP_cons] at ih hmono ⊢
    rcases mem_cons.1 hb with rfl | hb
    · simp only [hf, decide_true, if_true]
      have : decide (b.upper + 1 ≤ b.upper) = false := decide_eq_false (by omega)
      simp only [this, false_eq_true, if_false]
      omega
    · have hlt := ih hb
      by_cases h1 : b.upper + 1 ≤ a.upper
      · have h2 : f ≤ a.upper := by omega
        simp only [h1, h2, decide_true, if_true]
        omega
      · simp only [h1, decide_false, false_eq_true, if_false]
        omega

theorem firstLive_of_forall {l : List (ProperInterval w)} (h : ∀ a ∈ l, f ≤ a.upper → f ≤ a.lower) :
    FirstLive f l := by
  induction l with
  | nil => trivial
  | cons a t ih =>
    unfold FirstLive
    split
    · exact ih fun b hb => h b (mem_cons_of_mem _ hb)
    · exact h a mem_cons_self (by omega)

theorem firstLive_append {l₁ l₂ : List (ProperInterval w)} (h : ∀ a ∈ l₁, a.upper < f)
    (h₂ : FirstLive f l₂) : FirstLive f (l₁ ++ l₂) := by
  induction l₁ with
  | nil => exact h₂
  | cons a t ih =>
    rw [cons_append, FirstLive, if_pos (h a mem_cons_self)]
    exact ih fun b hb => h b (mem_cons_of_mem _ hb)

namespace Side

variable {o l : List (ProperInterval w)} {f : Nat} {a : ProperInterval w}

/-- A normalized list is a side at frontier zero. -/
theorem init (s : IntervalSet w) : Side s.intervals 0 s.intervals where
  sep := s.normal.imp fun h _ => inl (by omega)
  first := firstLive_of_forall fun _ _ _ => Nat.zero_le _
  uppers a ha _ := ⟨a, ha, rfl⟩
  sub a ha _ hx := ⟨a, ha, hx⟩
  keep _ _ hx := hx

/-- A live head starts at the frontier or later. -/
theorem le_lower (h : Side o f (a :: l)) (ha : f ≤ a.upper) : f ≤ a.lower := by
  have hfirst := h.first
  rwa [FirstLive, if_neg (by omega)] at hfirst

/-- Behind a live head nothing is dead. -/
theorem le_upper (h : Side o f (a :: l)) (ha : f ≤ a.upper) {b : ProperInterval w}
    (hb : b ∈ a :: l) : f ≤ b.upper := by
  rcases mem_cons.1 hb with rfl | hb
  · exact ha
  · have hsep := rel_of_pairwise_cons h.sep hb ha
    have := b.le
    omega

/-- Up to its end, a live head holds every unsettled point of the side. -/
theorem mem_head (h : Side o f (a :: l)) {x : Nat} (hf : f ≤ x) (hx : x ≤ a.upper)
    (hp : Points o x) : Mem x a := by
  obtain ⟨b, hb, hm⟩ := h.keep x hf hp
  rcases mem_cons.1 hb with rfl | hb
  · exact hm
  · obtain ⟨h1, h2⟩ := hm
    have hsep := rel_of_pairwise_cons h.sep hb (hf.trans hx)
    exact ⟨by omega, hx⟩

/-- Dropping a dead head changes nothing. -/
theorem dropDead (h : Side o f (a :: l)) (ha : a.upper < f) : Side o f l where
  sep := h.sep.of_cons
  first := by
    have hfirst := h.first
    rwa [FirstLive, if_pos ha] at hfirst
  uppers b hb := h.uppers b (mem_cons_of_mem _ hb)
  sub b hb := h.sub b (mem_cons_of_mem _ hb)
  keep x hf hp := by
    obtain ⟨b, hb, hm⟩ := h.keep x hf hp
    rcases mem_cons.1 hb with rfl | hb
    · have := hm.2
      omega
    · exact ⟨b, hb, hm⟩

/-- The separation of a list only weakens when the frontier moves on. -/
theorem sep_mono (h : Side o f l) {g : Nat} (hg : f ≤ g) :
    l.Pairwise fun a b => g ≤ a.upper → a.upper < b.lower ∨ (a.upper = b.upper ∧ a.lower ≤ g) := by
  refine h.sep.imp fun hab hga => ?_
  rcases hab (hg.trans hga) with h1 | h1
  · exact inl h1
  · exact inr ⟨h1.1, h1.2.trans hg⟩

/-- Dropping a live head moves the frontier past its end. -/
theorem advance (h : Side o f (a :: l)) (ha : f ≤ a.upper) : Side o (a.upper + 1) l where
  sep := (h.sep_mono (g := a.upper + 1) (by omega)).of_cons
  first := by
    refine firstLive_of_forall fun b hb hlive => ?_
    have hsep := rel_of_pairwise_cons h.sep hb ha
    omega
  uppers b hb hlive := h.uppers b (mem_cons_of_mem _ hb) (by omega)
  sub b hb := h.sub b (mem_cons_of_mem _ hb)
  keep x hf hp := by
    obtain ⟨b, hb, hm⟩ := h.keep x (by omega) hp
    rcases mem_cons.1 hb with rfl | hb
    · have := hm.2
      omega
    · exact ⟨b, hb, hm⟩

/-- The frontier may move up to the start of the head. -/
theorem pass (h : Side o f (a :: l)) {g : Nat} (hg : f ≤ g) (ha : g ≤ a.lower) :
    Side o g (a :: l) where
  sep := h.sep_mono hg
  first := by
    have := a.le
    rw [FirstLive, if_neg (by omega)]
    exact ha
  uppers b hb hlive := h.uppers b hb (by omega)
  sub := h.sub
  keep x hf hp := h.keep x (by omega) hp

end Side

theorem intersect_comm' (l r : ProperInterval w) : l.intersect r = r.intersect l := by
  unfold ProperInterval.intersect
  by_cases h : max l.lower r.lower ≤ min l.upper r.upper
  · have h' : max r.lower l.lower ≤ min r.upper l.upper := by rwa [Nat.max_comm, Nat.min_comm]
    rw [dif_pos h, dif_pos h']
    exact congrArg some (ProperInterval.ext' (Nat.max_comm _ _) (Nat.min_comm _ _))
  · have h' : ¬max r.lower l.lower ≤ min r.upper l.upper := by rwa [Nat.max_comm, Nat.min_comm]
    rw [dif_neg h, dif_neg h']

/-- What `Difference` leaves of an interval that ends after the other one: its
upper end, and possibly a piece below the other one. -/
theorem difference_of_upper_lt (hlt : l.upper < r.upper) (hm : l.intersect r = some m) :
    ∃ lows high, r.difference l = lows ++ [high] ∧ high.lower = l.upper + 1 ∧
      high.upper = r.upper ∧ lows.length ≤ 1 ∧
      ∀ a ∈ lows, r.lower ≤ a.lower ∧ a.upper < l.lower := by
  obtain ⟨h1, h2⟩ := intersect_eq_some hm
  have hint : r.intersect l = some m := by rw [intersect_comm', hm]
  have hup : m.upper = l.upper := by
    rw [h2]
    exact min_eq_left hlt.le
  unfold difference
  rw [hint]
  simp only
  rw [dif_pos (show m.upper < r.upper by omega)]
  refine ⟨_, _, rfl, congrArg (· + 1) hup, rfl, ?_, ?_⟩
  · split <;> simp
  · intro a ha
    split at ha
    · rename_i hlow
      rw [mem_singleton.1 ha]
      refine ⟨le_refl _, ?_⟩
      show m.lower - 1 < l.lower
      rw [h1] at hlow ⊢
      omega
    · simp at ha

/-- Inserting the remainder moves the frontier to the end of the other side's
interval. -/
theorem Side.split (h : Side o f (r :: rs)) (hf : f ≤ l.upper) (hlt : l.upper < r.upper)
    (hm : l.intersect r = some m) : Side o (l.upper + 1) (r.difference l ++ r :: rs) := by
  obtain ⟨lows, high, hdiff, hlow, hup, -, hlows⟩ := difference_of_upper_lt hlt hm
  have hll := l.le
  have hsub : ∀ a ∈ r.difference l, ∀ x, Mem x a → Mem x r := fun a ha x hx =>
    (mem_difference.1 ⟨a, ha, hx⟩).1
  have htail := h.sep_mono (g := l.upper + 1) (by omega)
  constructor
  case sep =>
      rw [hdiff, append_assoc, pairwise_append]
      refine ⟨?_, ?_, ?_⟩
      · refine Pairwise.imp_of_mem (R := fun _ _ => True) ?_ (pairwise_of_forall fun _ _ => trivial)
        intro a b ha hb _ hlive
        have := (hlows a ha).2
        omega
      · rw [singleton_append]
        refine Pairwise.cons ?_ htail
        intro b hb _
        rcases mem_cons.1 hb with rfl | hb
        · exact inr ⟨hup, hlow.le⟩
        · have hsep := rel_of_pairwise_cons h.sep hb (by omega)
          rw [hup]
          rcases hsep with h1 | h1
          · exact inl h1
          · exact inr ⟨h1.1, hlow.le⟩
      · intro a ha b _ hlive
        have := (hlows a ha).2
        omega
  case first =>
      rw [hdiff, append_assoc]
      refine firstLive_append (fun a ha => ?_) ?_
      · have := (hlows a ha).2
        omega
      · rw [singleton_append, FirstLive, if_neg (by omega)]
        exact hlow.ge
  case uppers =>
      intro a ha hlive
      rcases mem_append.1 ha with ha | ha
      · rw [hdiff] at ha
        rcases mem_append.1 ha with ha | ha
        · have := (hlows a ha).2
          omega
        · rw [mem_singleton.1 ha, hup]
          exact h.uppers r mem_cons_self (by omega)
      · exact h.uppers a ha (by omega)
  case sub =>
      intro a ha x hx
      rcases mem_append.1 ha with ha | ha
      · exact h.sub r mem_cons_self x (hsub a ha x hx)
      · exact h.sub a ha x hx
  case keep =>
      intro x hx hp
      obtain ⟨b, hb, hm⟩ := h.keep x (by omega) hp
      exact ⟨b, mem_append_right _ hb, hm⟩

/-! ### The walk -/

/-- The walk at frontier `f`: both sides, dead intervals of the two sides end
together, points below the frontier are settled, and nothing else was added. -/
structure Walk (lo ro : List (ProperInterval w)) (f : Nat)
    (ls rs acc : List (ProperInterval w)) : Prop where
  left : Side lo f ls
  right : Side ro f rs
  dead : ∀ a ∈ ls, ∀ b ∈ rs, a.upper < f → b.upper < f → a.upper = b.upper
  settled : ∀ x, x < f → Points lo x → Points ro x → Points acc x
  sound : ∀ x, Points acc x → Points lo x ∧ Points ro x

/-- What the walk spends: each live original interval pays for one frontier move
and the interval it may insert, each listed interval for being dropped. -/
def walkSize (lo ro : List (ProperInterval w)) (f : Nat) (ls rs : List (ProperInterval w)) : Nat :=
  2 * (live f lo + live f ro) + ls.length + rs.length

theorem points_append_singleton : Points (acc ++ [m]) x ↔ Points acc x ∨ Mem x m := by
  simp only [Points, mem_append, or_and_right, exists_or, mem_singleton, exists_eq_left]

/-- The points added for the two heads. -/
def addFound (acc : List (ProperInterval w)) : Option (ProperInterval w) → List (ProperInterval w)
  | some m => acc ++ [m]
  | none => acc

theorem points_addFound :
    Points (addFound acc (l.intersect r)) x ↔ Points acc x ∨ (Mem x l ∧ Mem x r) := by
  cases hm : l.intersect r with
  | none =>
    have := intersect_eq_none hm (x := x)
    simp only [addFound]
    tauto
  | some m => rw [addFound, points_append_singleton, mem_of_intersect hm]

namespace Walk

variable {lo ro ls rs acc : List (ProperInterval w)} {f : Nat} {l r : ProperInterval w}

theorem symm (h : Walk lo ro f ls rs acc) : Walk ro lo f rs ls acc where
  left := h.right
  right := h.left
  dead a ha b hb h1 h2 := (h.dead b hb a ha h2 h1).symm
  settled x hx h1 h2 := h.settled x hx h2 h1
  sound x hx := (h.sound x hx).symm

theorem sound_addFound (h : Walk lo ro f (l :: ls) (r :: rs) acc) (x : Nat)
    (hx : Points (addFound acc (l.intersect r)) x) : Points lo x ∧ Points ro x := by
  rcases points_addFound.1 hx with hx | hx
  · exact h.sound x hx
  · exact ⟨h.left.sub l mem_cons_self x hx.1, h.right.sub r mem_cons_self x hx.2⟩

/-- Adding the common points of two live heads settles everything up to the
smaller end. -/
theorem settled_addFound (h : Walk lo ro f (l :: ls) (r :: rs) acc) {g : Nat}
    (hl : g ≤ l.upper + 1) (hr : g ≤ r.upper + 1) (x : Nat) (hx : x < g) (h1 : Points lo x)
    (h2 : Points ro x) : Points (addFound acc (l.intersect r)) x := by
  rw [points_addFound]
  by_cases hf : x < f
  · exact inl (h.settled x hf h1 h2)
  · exact inr ⟨h.left.mem_head (by omega) (by omega) h1, h.right.mem_head (by omega) (by omega) h2⟩

/-- What the walk does to the side whose head ends later. -/
def keepLonger (l r : ProperInterval w) (rs : List (ProperInterval w)) : List (ProperInterval w) :=
  match l.intersect r with
  | some _ => r.difference l ++ r :: rs
  | none => r :: rs

theorem keepLonger_none (hm : l.intersect r = none) (rs : List (ProperInterval w)) :
    keepLonger l r rs = r :: rs := by
  rw [keepLonger, hm]

theorem keepLonger_some {m : ProperInterval w} (hm : l.intersect r = some m)
    (rs : List (ProperInterval w)) : keepLonger l r rs = r.difference l ++ r :: rs := by
  rw [keepLonger, hm]

/-- The round in which the left head ends first. -/
theorem dropShorter (h : Walk lo ro f (l :: ls) (r :: rs) acc) (hlt : l.upper < r.upper) :
    ∃ g, Walk lo ro g ls (keepLonger l r rs) (addFound acc (l.intersect r)) ∧
      walkSize lo ro g ls (keepLonger l r rs) < walkSize lo ro f (l :: ls) (r :: rs) := by
  have hll := l.le
  have hrr := r.le
  by_cases hdead : l.upper < f
  · -- a dead head meets no live one, and dead heads end together
    have hlive : f ≤ r.upper := by
      by_contra hcon
      have := h.dead l mem_cons_self r mem_cons_self hdead (by omega)
      omega
    have hlow := h.right.le_lower hlive
    have hnone : l.intersect r = none :=
      dif_neg (by simp only [not_le, lt_max_iff, min_lt_iff]; omega)
    rw [keepLonger_none hnone, hnone]
    refine ⟨f, ⟨h.left.dropDead hdead, h.right, ?_, h.settled, h.sound⟩, ?_⟩
    · exact fun a ha => h.dead a (mem_cons_of_mem _ ha)
    · simp only [walkSize, length_cons]
      omega
  · have hfl : f ≤ l.upper := by omega
    obtain ⟨b, hb, hbu⟩ := h.left.uppers l mem_cons_self hfl
    have hspend : live (l.upper + 1) lo < live f lo := hbu ▸ live_lt hb (by omega)
    have hspend' := live_mono (show f ≤ l.upper + 1 by omega) ro
    have hleft := h.left.advance hfl
    have hset := h.settled_addFound (g := l.upper + 1) le_rfl (by omega)
    rcases Option.eq_none_or_eq_some (l.intersect r) with hm | ⟨m, hm⟩
    · have hlow : l.upper + 1 ≤ r.lower := by
        unfold ProperInterval.intersect at hm
        split at hm
        · cases hm
        · rename_i hno
          simp only [not_le, lt_max_iff, min_lt_iff] at hno
          omega
      rw [keepLonger_none hm rs]
      refine ⟨l.upper + 1, ⟨hleft, h.right.pass (by omega) hlow, ?_, hset, h.sound_addFound⟩, ?_⟩
      · intro a _ c hc _ h2
        have hlive := h.right.pass (g := l.upper + 1) (by omega) hlow
        have := hlive.le_upper (by omega) hc
        omega
      · simp only [walkSize, length_cons]
        omega
    · obtain ⟨lows, high, hdiff, hlow, hup, hlen, hlows⟩ := difference_of_upper_lt hlt hm
      rw [keepLonger_some hm rs]
      refine ⟨l.upper + 1, ⟨hleft, h.right.split hfl hlt hm, ?_, hset, h.sound_addFound⟩, ?_⟩
      · intro a ha c hc h1 h2
        -- a piece below `l` exists only when `l` is not itself a remainder
        have hc' : c ∈ lows := by
          rw [hdiff] at hc
          simp only [append_assoc, mem_append, mem_singleton] at hc
          rcases hc with hc | rfl | hc
          · exact hc
          · omega
          · rcases mem_cons.1 hc with rfl | hc
            · omega
            · have := rel_of_pairwise_cons h.right.sep hc (by omega)
              have := c.le
              omega
        have hfr := h.right.le_lower (by omega : f ≤ r.upper)
        have hlw := hlows c hc'
        have hle := c.le
        have hsep := rel_of_pairwise_cons h.left.sep ha hfl
        have := a.le
        omega
      · simp only [walkSize, length_append, length_cons, hdiff, length_nil]
        omega

/-- The round in which both heads end together. -/
theorem dropBoth (h : Walk lo ro f (l :: ls) (r :: rs) acc) (heq : l.upper = r.upper) :
    ∃ g, Walk lo ro g ls rs (addFound acc (l.intersect r)) ∧
      walkSize lo ro g ls rs < walkSize lo ro f (l :: ls) (r :: rs) := by
  by_cases hdead : l.upper < f
  · have hset : ∀ x, x < f → Points lo x → Points ro x →
        Points (addFound acc (l.intersect r)) x := fun x hx h1 h2 =>
      points_addFound.2 (inl (h.settled x hx h1 h2))
    refine ⟨f, ⟨h.left.dropDead hdead, h.right.dropDead (heq ▸ hdead), ?_, hset,
      h.sound_addFound⟩, ?_⟩
    · exact fun a ha b hb => h.dead a (mem_cons_of_mem _ ha) b (mem_cons_of_mem _ hb)
    · simp only [walkSize, length_cons]
      omega
  · have hfl : f ≤ l.upper := by omega
    refine ⟨l.upper + 1, ⟨h.left.advance hfl, heq ▸ h.right.advance (heq ▸ hfl), ?_,
      h.settled_addFound le_rfl (by omega), h.sound_addFound⟩, ?_⟩
    · intro a ha b hb h1 h2
      have ha' := h.left.le_upper hfl (mem_cons_of_mem _ ha)
      have hsa := rel_of_pairwise_cons h.left.sep ha hfl
      have hsb := rel_of_pairwise_cons h.right.sep hb (heq ▸ hfl)
      have := a.le
      have := b.le
      omega
    · have h1 := live_mono (show f ≤ l.upper + 1 by omega) lo
      have h2 := live_mono (show f ≤ l.upper + 1 by omega) ro
      simp only [walkSize, length_cons]
      omega

end Walk

/-- One round of the loop, with the updates of the two lists named. -/
theorem intersectLoop_cons (fuel : Nat) (l r : ProperInterval w)
    (ls rs acc : List (ProperInterval w)) :
    intersectLoop (fuel + 1) (l :: ls) (r :: rs) acc = if l.upper < r.upper then
        intersectLoop fuel ls (Walk.keepLonger l r rs) (addFound acc (l.intersect r))
      else if r.upper < l.upper then
        intersectLoop fuel (Walk.keepLonger r l ls) rs (addFound acc (l.intersect r))
      else intersectLoop fuel ls rs (addFound acc (l.intersect r)) := by
  rw [intersectLoop, Walk.keepLonger, Walk.keepLonger, intersect_comm' r l]
  cases l.intersect r <;> rfl

/-- The walk ends, with exactly the common points. -/
theorem intersectLoop_spec {lo ro : List (ProperInterval w)} :
    ∀ (fuel f : Nat) (ls rs acc : List (ProperInterval w)), Walk lo ro f ls rs acc →
      walkSize lo ro f ls rs ≤ fuel → ∃ out, intersectLoop fuel ls rs acc = some out ∧
        ∀ x, Points out x ↔ Points lo x ∧ Points ro x := by
  intro fuel
  induction fuel with
  | zero =>
    intro f ls rs acc h hsize
    have hnil : ls = [] := by
      simp only [walkSize] at hsize
      exact eq_nil_of_length_eq_zero (by omega)
    subst hnil
    refine ⟨acc, by unfold intersectLoop; rfl, fun x => ⟨h.sound x, fun hx => ?_⟩⟩
    by_cases hf : x < f
    · exact h.settled x hf hx.1 hx.2
    · obtain ⟨i, hi, -⟩ := h.left.keep x (by omega) hx.1
      simp at hi
  | succ fuel ih =>
    intro f ls rs acc h hsize
    cases ls with
    | nil =>
      refine ⟨acc, by unfold intersectLoop; rfl, fun x => ⟨h.sound x, fun hx => ?_⟩⟩
      by_cases hf : x < f
      · exact h.settled x hf hx.1 hx.2
      · obtain ⟨i, hi, -⟩ := h.left.keep x (by omega) hx.1
        simp at hi
    | cons l ls =>
      cases rs with
      | nil =>
        refine ⟨acc, by unfold intersectLoop; rfl, fun x => ⟨h.sound x, fun hx => ?_⟩⟩
        by_cases hf : x < f
        · exact h.settled x hf hx.1 hx.2
        · obtain ⟨i, hi, -⟩ := h.right.keep x (by omega) hx.2
          simp at hi
      | cons r rs =>
        rw [intersectLoop_cons]
        split
        · rename_i hlt
          obtain ⟨g, hg, hdec⟩ := h.dropShorter hlt
          exact ih g _ _ _ hg (by omega)
        · split
          · rename_i hlt
            obtain ⟨g, hg, hdec⟩ := h.symm.dropShorter hlt
            rw [intersect_comm' r l] at hg
            refine ih g _ _ _ hg.symm ?_
            simp only [walkSize] at hdec hsize ⊢
            omega
          · obtain ⟨g, hg, hdec⟩ := h.dropBoth (by omega)
            exact ih g _ _ _ hg (by omega)

/-- The walk starts with both lists and no output. -/
theorem walk_init (l r : IntervalSet w) :
    Walk l.intervals r.intervals 0 l.intervals r.intervals [] where
  left := Side.init l
  right := Side.init r
  dead := by
    intro a _ b _ h
    omega
  settled := by
    intro x h
    omega
  sound := by
    rintro x ⟨i, hi, -⟩
    simp at hi

/-- `Intersect` covers exactly the common points. -/
theorem covers_intersect {l r : IntervalSet w} :
    (intersect l r).Covers x ↔ l.Covers x ∧ r.Covers x := by
  have hsize : walkSize l.intervals r.intervals 0 l.intervals r.intervals ≤
      intersectFuel l.intervals r.intervals := by
    have h1 : live 0 l.intervals ≤ l.intervals.length := countP_le_length
    have h2 : live 0 r.intervals ≤ r.intervals.length := countP_le_length
    simp only [walkSize, intersectFuel]
    omega
  obtain ⟨out, hout, hspec⟩ := intersectLoop_spec _ 0 _ _ [] (walk_init l r) hsize
  rw [intersect, hout]
  by_cases hx : x < 2 ^ w
  · rw [covers_normalize hx]
    refine Iff.trans ?_ (hspec x)
    simp [RawCovers, Points, covers_iff]
  · constructor
    · intro h
      exact absurd h.lt hx
    · intro h
      exact absurd h.1.lt hx

/-! ### Complement and disjointness -/

/-- The complement of one interval as a set of its own. -/
def complementOf (i : ProperInterval w) : IntervalSet w :=
  normalize (i.complement.map (·.toInterval))

/-- `IntervalSet::Complement`: intersect the complements of the intervals. -/
def complement (s : IntervalSet w) : IntervalSet w :=
  s.intervals.foldl (fun result i => intersect result (complementOf i)) (maximal w)

theorem covers_complementOf {i : ProperInterval w} (hx : x < 2 ^ w) :
    (complementOf i).Covers x ↔ ¬Mem x i := by
  rw [complementOf, covers_normalize hx, ← mem_complement hx]
  simp [RawCovers, covers_iff]

theorem covers_foldl_complement {l : List (ProperInterval w)} (hx : x < 2 ^ w) :
    (l.foldl (fun result i => intersect result (complementOf i)) s).Covers x ↔
      s.Covers x ∧ ¬Points l x := by
  induction l generalizing s with
  | nil => simp [Points]
  | cons i is ih =>
    have hcons : Points (i :: is) x ↔ Mem x i ∨ Points is x := by simp [Points]
    rw [foldl_cons, ih, covers_intersect, covers_complementOf hx, hcons]
    tauto

theorem covers_complement (hx : x < 2 ^ w) : s.complement.Covers x ↔ ¬s.Covers x := by
  rw [complement, covers_foldl_complement hx]
  exact and_iff_right (covers_maximal hx)

/-- The two-iterator loop of `Disjoint`; each round drops a head. -/
def disjointLoop : List (ProperInterval w) → List (ProperInterval w) → Bool
  | [], _ => true
  | _ :: _, [] => true
  | l :: ls, r :: rs =>
    if l.overlaps r then false
    else if l.lexLt r then disjointLoop ls (r :: rs)
    else disjointLoop (l :: ls) rs
termination_by l r => l.length + r.length

/-- `IntervalSet::Disjoint`. The two hulls exist once neither set is empty. -/
def disjoint (l r : IntervalSet w) : Bool :=
  if l.isEmpty || r.isEmpty then true
  else if l.isMaximal || r.isMaximal then false
  else
    match l.convexHull, r.convexHull with
    | some lhs, some rhs =>
      if lhs.disjoint rhs then true else disjointLoop l.intervals r.intervals
    | _, _ => true

/-- The heads of two sorted lists that do not overlap: the lexicographically
smaller one ends before everything in the other list. -/
theorem not_points_of_disjointLoop {ls : List (ProperInterval w)}
    (hl : ls.Pairwise (fun a b => a.upper + 1 < b.lower))
    (hr : rs.Pairwise (fun a b => a.upper + 1 < b.lower)) (h : disjointLoop ls rs = true) :
    ¬(Points ls x ∧ Points rs x) := by
  induction ls, rs using disjointLoop.induct with
  | case1 rs => simp [Points]
  | case2 l ls => simp [Points]
  | case3 l ls r rs hover =>
    rw [disjointLoop, if_pos hover] at h
    exact absurd h (by simp)
  | case4 l ls r rs hover hlt ih =>
    rw [disjointLoop, if_neg hover, if_pos hlt] at h
    have hno := ih hl.of_cons hr h
    rw [overlaps_iff] at hover
    simp only [lexLt, decide_eq_true_eq] at hlt
    rintro ⟨⟨i, hi, hxi⟩, hxr⟩
    rcases mem_cons.1 hi with rfl | hi
    · obtain ⟨j, hj, hxj⟩ := hxr
      have hjl : r.lower ≤ j.lower := by
        rcases mem_cons.1 hj with rfl | hj
        · exact le_refl _
        · have := rel_of_pairwise_cons hr hj
          have := r.le
          omega
      have := hxi.2
      have := hxj.1
      have := r.le
      omega
    · exact hno ⟨⟨i, hi, hxi⟩, hxr⟩
  | case5 l ls r rs hover hlt ih =>
    rw [disjointLoop, if_neg hover, if_neg hlt] at h
    have hno := ih hl hr.of_cons h
    rw [overlaps_iff] at hover
    simp only [lexLt, decide_eq_true_eq] at hlt
    rintro ⟨hxl, ⟨j, hj, hxj⟩⟩
    rcases mem_cons.1 hj with rfl | hj
    · obtain ⟨i, hi, hxi⟩ := hxl
      have hil : l.lower ≤ i.lower := by
        rcases mem_cons.1 hi with rfl | hi
        · exact le_refl _
        · have := rel_of_pairwise_cons hl hi
          have := l.le
          omega
      have := hxj.2
      have := hxi.1
      have := l.le
      have := j.le
      omega
    · exact hno ⟨hxl, ⟨j, hj, hxj⟩⟩

/-- Sets reported disjoint share no point. -/
theorem not_covers_of_disjoint {l r : IntervalSet w} (h : disjoint l r = true) (hl : l.Covers x)
    (hr : r.Covers x) : False := by
  have hle := intervals_ne_nil hl
  have hre := intervals_ne_nil hr
  obtain ⟨i, hi, -, -, hmi⟩ := convexHull_spec hle
  obtain ⟨j, hj, -, -, hmj⟩ := convexHull_spec hre
  rw [disjoint, isEmpty_eq_false_of_covers hl, isEmpty_eq_false_of_covers hr, hi, hj] at h
  simp only [Bool.or_self, false_eq_true, if_false] at h
  split at h
  · cases h
  · split at h
    · rename_i hdis
      have hx := hmi x hl
      have hy := hmj x hr
      rw [ProperInterval.disjoint, not_eq_true', ← not_eq_true, overlaps_iff] at hdis
      exact hdis ⟨hy.1.trans hx.2, hx.1.trans hy.2⟩
    · exact not_points_of_disjointLoop l.normal r.normal h ⟨hl, hr⟩

end Xls.IntervalSet
