import Xls.Lib.BoolList

/-!
# Xls.Status

The two ways a modelled function can stop without a value: a failing `CHECK`
(or `LOG(FATAL)`, or an access the language leaves undefined, such as `front()`
of an empty span), which aborts the process, and an error `absl::Status`, which
is returned to the caller.
-/

namespace Xls

/-- Why a modelled call produced no value. -/
inductive Failure
  /-- A failing `CHECK`; the process aborts. -/
  | check
  /-- An error `absl::Status` returned to the caller. -/
  | status (message : String)
  deriving DecidableEq, Repr

/-- The outcome of a fallible call. -/
abbrev Result (α : Type) := Except Failure α

/-- `CHECK(cond)`. -/
def checkThat (cond : Bool) : Result Unit := if cond then .ok () else .error .check

/-- Dereference of a `std::optional` that the source does not test. -/
def derefOption {α : Type} : Option α → Result α
  | some a => .ok a
  | none => .error .check

@[simp] theorem checkThat_true : checkThat true = .ok () := rfl
@[simp] theorem checkThat_false : checkThat false = .error .check := rfl

theorem checkThat_eq_ok {cond : Bool} {u : Unit} : checkThat cond = .ok u ↔ cond = true := by
  cases cond <;> simp

theorem derefOption_eq_ok {α : Type} {o : Option α} {a : α} :
    derefOption o = .ok a ↔ o = some a := by
  cases o <;> simp [derefOption]

namespace Result

variable {α β : Type}

/-- A sequenced computation succeeds exactly when both halves do. -/
theorem bind_eq_ok {x : Result α} {f : α → Result β} {b : β} :
    (x >>= f) = .ok b ↔ ∃ a, x = .ok a ∧ f a = .ok b := by
  cases x with
  | error e =>
    constructor
    · intro h
      cases h
    · rintro ⟨a, ha, -⟩
      cases ha
  | ok a =>
    constructor
    · intro h
      exact ⟨a, rfl, h⟩
    · rintro ⟨a', ha, h⟩
      cases ha
      exact h

@[simp] theorem ok_bind (a : α) (f : α → Result β) : ((.ok a : Result α) >>= f) = f a := rfl

@[simp] theorem error_bind (e : Failure) (f : α → Result β) :
    ((.error e : Result α) >>= f) = .error e := rfl

@[simp] theorem pure_eq_ok (a : α) : (pure a : Result α) = .ok a := rfl

end Result

end Xls
