import StackForge.Check.Fault
import StackForge.Diagnostic.Log

/-!
Counting errors. A log without errors was only ever given warnings, so every check that wrote to
it found nothing wrong.
-/
namespace StackForge

/-- Diagnostics among which there is no error. -/
def Harmless (ds : List Diagnostic) : Prop := ∀ d ∈ ds, d.severity = .warning

@[simp] theorem harmless_nil : Harmless [] := by
  intro d hd
  cases hd

@[simp] theorem harmless_append (ds es : List Diagnostic) :
    Harmless (ds ++ es) ↔ Harmless ds ∧ Harmless es := by
  simp only [Harmless, List.mem_append]
  constructor
  · intro h
    exact ⟨fun d hd => h d (.inl hd), fun d hd => h d (.inr hd)⟩
  · rintro ⟨h₁, h₂⟩ d (hd | hd)
    · exact h₁ d hd
    · exact h₂ d hd

@[simp] theorem harmless_cons (d : Diagnostic) (ds : List Diagnostic) :
    Harmless (d :: ds) ↔ d.severity = .warning ∧ Harmless ds := by
  simp [Harmless]

namespace CheckFault

@[simp] theorem located_severity (f : CheckFault) (src : Source) (span : Span) :
    (f.located src span).severity = f.severity := rfl

@[simp] theorem structural_severity (f : CheckFault) (origin : String) :
    (f.structural origin).severity = f.severity := rfl

end CheckFault

namespace Log

theorem hasErrors_push (log : Log) (d : Diagnostic) :
    (log.push d).hasErrors = false ↔ log.hasErrors = false ∧ d.severity = .warning := by
  unfold push
  cases hd : d.severity with
  | error => simp [hasErrors]
  | warning => simp [hasErrors]

theorem hasErrors_push_of_error (log : Log) {d : Diagnostic} (h : d.severity = .error) :
    (log.push d).hasErrors = true := by
  simp [push, h, hasErrors]

/-- A log stays free of errors exactly when all that is added is harmless. -/
@[simp] theorem hasErrors_pushAll (log : Log) (ds : List Diagnostic) :
    (log.pushAll ds).hasErrors = false ↔ log.hasErrors = false ∧ Harmless ds := by
  induction ds generalizing log with
  | nil => simp
  | cons d ds ih =>
    rw [pushAll_cons, ih, hasErrors_push, harmless_cons, and_assoc]

/-- Every error that is added is counted, also where it is not stored. -/
theorem totalErrors_pushAll (log : Log) (ds : List Diagnostic) :
    (log.pushAll ds).totalErrors = log.totalErrors + ds.countP (·.severity = .error) := by
  induction ds generalizing log with
  | nil => rfl
  | cons d ds ih =>
    rw [pushAll_cons, ih, push]
    cases hd : d.severity with
    | error =>
      rw [List.countP_cons_of_pos (by simp [hd])]
      simp only
      omega
    | warning => rw [List.countP_cons_of_neg (by simp [hd])]

/-- The count of errors stays exactly when all that is added is harmless. -/
theorem totalErrors_pushAll_eq_iff (log : Log) (ds : List Diagnostic) :
    (log.pushAll ds).totalErrors = log.totalErrors ↔ Harmless ds := by
  rw [totalErrors_pushAll, Nat.add_eq_left, List.countP_eq_zero]
  refine forall₂_congr fun d _ => ?_
  cases d.severity <;> simp

/-- Errors are stored in order as long as there is room for them. -/
theorem pushAll_of_errors (log : Log) {ds : List Diagnostic}
    (hds : ∀ d ∈ ds, d.severity = .error) (hroom : log.errors.length + ds.length ≤ capacity) :
    log.pushAll ds = { log with
      errors := log.errors ++ ds
      totalErrors := log.totalErrors + ds.length } := by
  induction ds generalizing log with
  | nil => simp
  | cons d ds ih =>
    obtain ⟨hd, hrest⟩ := List.forall_mem_cons.mp hds
    rw [List.length_cons] at hroom
    have hpush : log.push d = { log with
        errors := log.errors ++ [d]
        totalErrors := log.totalErrors + 1 } := by
      have hfree : log.errors.length < capacity := by omega
      simp [push, hd, hfree]
    rw [pushAll_cons, hpush, ih _ hrest (by simp; omega)]
    simp
    omega

end Log
end StackForge
