import StackForge.Proofs.Log

/-!
Collecting diagnostics. `Gathers` says which diagnostics have come into a log, one by one or
together with another log that was taken over. However they came, the log is the summary of all of
them: the first twenty errors, all warnings, and the numbers of both.
-/
namespace StackForge

def errorsOf (ds : List Diagnostic) : List Diagnostic := ds.filter (·.severity = .error)

def warningsOf (ds : List Diagnostic) : List Diagnostic := ds.filter (·.severity = .warning)

@[simp] theorem errorsOf_append (ds es : List Diagnostic) :
    errorsOf (ds ++ es) = errorsOf ds ++ errorsOf es := List.filter_append ds es

@[simp] theorem warningsOf_append (ds es : List Diagnostic) :
    warningsOf (ds ++ es) = warningsOf ds ++ warningsOf es := List.filter_append ds es

namespace Log

/-- What is left of diagnostics in a log. -/
def summary (ds : List Diagnostic) : Log where
  errors := (errorsOf ds).take capacity
  warnings := warningsOf ds
  totalErrors := (errorsOf ds).length
  totalWarnings := (warningsOf ds).length

theorem take_append_take {α : Type} (xs ys : List α) (n : Nat) :
    (xs ++ ys.take n).take n = (xs ++ ys).take n := by
  rw [List.take_append, List.take_append, List.take_take, Nat.min_eq_left (Nat.sub_le _ _)]

/-- One diagnostic more. -/
theorem push_summary (ds : List Diagnostic) (d : Diagnostic) :
    (summary ds).push d = summary (ds ++ [d]) := by
  cases hd : d.severity with
  | warning => simp [push, summary, errorsOf, warningsOf, hd]
  | error =>
    have herrors : errorsOf [d] = [d] := by simp [errorsOf, hd]
    have hwarnings : warningsOf [d] = [] := by simp [warningsOf, hd]
    simp only [push, summary, hd, errorsOf_append, warningsOf_append, herrors, hwarnings,
      List.append_nil, List.length_append, List.length_singleton, List.length_take]
    by_cases hroom : (errorsOf ds).length < capacity
    · rw [if_pos (by omega), List.take_of_length_le (by omega),
        List.take_of_length_le (by simp; omega)]
    · rw [if_neg (by omega), List.take_append_of_le_length (by omega)]

theorem pushAll_summary (ds es : List Diagnostic) :
    (summary ds).pushAll es = summary (ds ++ es) := by
  induction es generalizing ds with
  | nil => simp
  | cons e es ih => rw [pushAll_cons, push_summary, ih, List.append_assoc, List.singleton_append]

theorem ofList_eq_summary (ds : List Diagnostic) : ofList ds = summary ds :=
  pushAll_summary [] ds

/-- Warnings are added behind the others, whatever has been counted. -/
theorem pushAll_of_harmless (log : Log) {ds : List Diagnostic} (hds : Harmless ds) :
    log.pushAll ds = { log with
      warnings := log.warnings ++ ds
      totalWarnings := log.totalWarnings + ds.length } := by
  induction ds generalizing log with
  | nil => simp
  | cons d ds ih =>
    obtain ⟨hd, hrest⟩ := (harmless_cons d ds).mp hds
    rw [pushAll_cons, ih _ hrest]
    simp [push, hd]
    omega

theorem harmless_warningsOf (ds : List Diagnostic) : Harmless (warningsOf ds) := by
  intro d hd
  simpa using (List.mem_filter.mp hd).2

theorem errorsOf_take_errorsOf (ds : List Diagnostic) (n : Nat) :
    errorsOf ((errorsOf ds).take n) = (errorsOf ds).take n := by
  refine List.filter_eq_self.mpr fun d hd => ?_
  exact (List.mem_filter.mp (List.mem_of_mem_take hd)).2

theorem warningsOf_take_errorsOf (ds : List Diagnostic) (n : Nat) :
    warningsOf ((errorsOf ds).take n) = [] := by
  refine List.filter_eq_nil_iff.mpr fun d hd => ?_
  have herror : d.severity = .error := by
    simpa using (List.mem_filter.mp (List.mem_of_mem_take hd)).2
  simp [herror]

/-- Taking over the summary of some diagnostics is being given all of them. Its errors are pushed,
and those that it only counts are counted, before its warnings are pushed. -/
theorem summary_append (ds es : List Diagnostic) :
    summary ds ++ summary es = summary (ds ++ es) := by
  change (summary ds).append (summary es) = _
  have hpushed : (summary ds).pushAll (summary es).errors
      = summary (ds ++ (errorsOf es).take capacity) := pushAll_summary ds _
  have hwarnings : Harmless (summary es).warnings := harmless_warningsOf es
  simp only [append, hpushed, pushAll_of_harmless _ hwarnings]
  simp only [summary, errorsOf_append, warningsOf_append, errorsOf_take_errorsOf,
    warningsOf_take_errorsOf, take_append_take, List.length_append, List.append_nil,
    List.length_take, Nat.add_assoc]
  have hcount : min capacity (errorsOf es).length
      + ((errorsOf es).length - min capacity (errorsOf es).length) = (errorsOf es).length := by
    omega
  rw [hcount]

/-- `Gathers log ds`: the diagnostics `ds` have come into the log, in this order. -/
inductive Gathers : Log → List Diagnostic → Prop where
  | empty : Gathers Log.empty []
  | push {log : Log} {ds : List Diagnostic} (d : Diagnostic) (h : Gathers log ds) :
      Gathers (log.push d) (ds ++ [d])
  | append {log other : Log} {ds es : List Diagnostic} (h : Gathers log ds)
      (h' : Gathers other es) : Gathers (log ++ other) (ds ++ es)

namespace Gathers

variable {log : Log} {ds : List Diagnostic}

theorem eq_summary (h : Gathers log ds) : log = summary ds := by
  induction h with
  | empty => rfl
  | push d h ih => rw [ih, push_summary]
  | append h h' ih ih' => rw [ih, ih', summary_append]

theorem pushAll (h : Gathers log ds) (es : List Diagnostic) :
    Gathers (log.pushAll es) (ds ++ es) := by
  induction es generalizing log ds with
  | nil => simpa using h
  | cons e es ih => simpa using ih (h.push e)

theorem ofList (ds : List Diagnostic) : Gathers (Log.ofList ds) ds := Gathers.empty.pushAll ds

/-- The last line of the text counts the errors behind those that are stored. -/
theorem text_eq (h : Gathers log ds) :
    log.text = String.join (((errorsOf ds).take capacity).map fun d => d.text ++ "\n") ++
      if (errorsOf ds).drop capacity = [] then ""
      else s!"... and {((errorsOf ds).drop capacity).length} more errors\n" := by
  rw [h.eq_summary]
  have hunstored : (summary ds).totalErrors - (summary ds).errors.length
      = ((errorsOf ds).drop capacity).length := by
    simp only [summary, List.length_take, List.length_drop]
    omega
  unfold text
  simp only [hunstored, List.length_eq_zero_iff]
  split
  · rw [String.append_empty]
    rfl
  · rfl

end Gathers

/-- Diagnostics that are pushed one by one, and those of two logs of which the one takes over the
other, leave the same log: the first twenty errors and all warnings in order, and the number of
both. In every log that was filled by pushing and taking over, in any order, as many errors are
stored as there are up to twenty, all warnings are, and the text tells the number of the other
errors. -/
theorem collecting_is_homomorphism (xs ys : List Diagnostic) :
    (ofList xs).pushAll ys = ofList xs ++ ofList ys ∧
    ofList xs ++ ofList ys =
      { errors := (errorsOf (xs ++ ys)).take 20
        warnings := warningsOf (xs ++ ys)
        totalErrors := (errorsOf (xs ++ ys)).length
        totalWarnings := (warningsOf (xs ++ ys)).length } ∧
    ∀ (log : Log) (ds : List Diagnostic), Gathers log ds →
      log = ofList ds ∧ log.errors.length = min 20 log.totalErrors ∧
      log.warnings.length = log.totalWarnings ∧
      log.text = String.join (log.errors.map fun d => d.text ++ "\n") ++
        if (errorsOf ds).drop 20 = [] then ""
        else s!"... and {((errorsOf ds).drop 20).length} more errors\n" := by
  have happend : ofList xs ++ ofList ys = summary (xs ++ ys) := by
    rw [ofList_eq_summary, ofList_eq_summary, summary_append]
  refine ⟨?_, happend, ?_⟩
  · rw [happend, ofList_eq_summary, pushAll_summary]
  · intro log ds h
    have hlog := h.eq_summary
    refine ⟨by rw [hlog, ofList_eq_summary], ?_, ?_, ?_⟩
    · simp [hlog, summary, capacity]
    · simp [hlog, summary]
    · rw [h.text_eq, hlog]
      rfl

/-- Fifteen errors, then a log with a warning between eight errors: three are only counted. -/
theorem collecting_is_homomorphism_beyond :
    ∃ (e w : Diagnostic) (log : Log),
      log = ofList (List.replicate 15 e) ++ ofList (List.replicate 4 e ++ w :: List.replicate 4 e) ∧
      log.errors = List.replicate 20 e ∧ log.warnings = [w] ∧ log.totalErrors = 23 ∧
      log.text = String.join (List.replicate 20 (e.text ++ "\n")) ++ "... and 3 more errors\n" := by
  generalize he : Diagnostic.structural "rdf" .missingRole "no stack" = e
  generalize hw : (Diagnostic.structural "rdf" .unusedErrorHandler "unused").asWarning = w
  have herror : e.severity = .error := by rw [← he]; rfl
  have hwarning : w.severity = .warning := by rw [← hw]; rfl
  obtain ⟨-, hlog, hall⟩ := collecting_is_homomorphism (List.replicate 15 e)
    (List.replicate 4 e ++ w :: List.replicate 4 e)
  obtain ⟨-, -, -, htext⟩ := hall _ _ ((Gathers.ofList (List.replicate 15 e)).append
    (Gathers.ofList (List.replicate 4 e ++ w :: List.replicate 4 e)))
  have herrors : errorsOf (List.replicate 15 e ++ (List.replicate 4 e ++ w :: List.replicate 4 e))
      = List.replicate 23 e := by
    simp [errorsOf, herror, hwarning]
  have hwarnings : warningsOf
      (List.replicate 15 e ++ (List.replicate 4 e ++ w :: List.replicate 4 e)) = [w] := by
    simp [warningsOf, herror, hwarning]
  rw [herrors, hwarnings] at hlog
  rw [herrors, hlog] at htext
  refine ⟨e, w, _, rfl, by rw [hlog]; simp, by rw [hlog], by rw [hlog]; simp, ?_⟩
  have hmore : "... and " ++ Nat.repr 3 ++ " more errors\n" = "... and 3 more errors\n" := by decide
  rw [hlog, htext, ← hmore]
  simp [toString]

end Log
end StackForge
