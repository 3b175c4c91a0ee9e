import StackForge.Diagnostic.Json
import StackForge.Proofs.JsonText

/-!
Diagnostics survive the way through JSON: from their text, compact or pretty, the same diagnostic
is read, whatever characters its strings hold.
-/
namespace StackForge

/-- Lines and columns have thirty-two bits. -/
def Span.IsPlace (s : Span) : Prop :=
  s.startLine < Diagnostic.placeLimit ∧ s.startCol < Diagnostic.placeLimit
    ∧ s.endLine < Diagnostic.placeLimit ∧ s.endCol < Diagnostic.placeLimit

namespace Diagnostic

theorem below?_nat {limit n : Nat} (h : n < limit) : below? limit (.nat n) = some n := if_pos h

theorem exact_nat {n : Nat} (h : n < placeLimit) : (Json.nat n).Exact := by
  simp only [placeLimit] at h
  simp only [Json.nat, Json.Exact, Json.IsWord, Json.wordLimit, Nat.pow_eq, Nat.reducePow]
  omega

theorem number_lt_codeLimit (c : Code) : c.number.toNat < codeLimit := c.number.toNat_lt

theorem exact_toJson {d : Diagnostic} (h : d.span.IsPlace) : d.toJson.Exact := by
  obtain ⟨hstartLine, hstartCol, hendLine, hendCol⟩ := h
  have hcode : d.code.number.toNat < placeLimit :=
    Nat.lt_trans (number_lt_codeLimit d.code) (by decide)
  cases hs : d.suggestion <;>
    simp [toJson, Json.Exact, Json.ExactMembers, exact_nat, *]

theorem depth_toJson (d : Diagnostic) : d.toJson.depth = 1 := by
  cases hs : d.suggestion <;> simp [toJson, hs, Json.depth, Json.depthMembers, Json.nat]

theorem isFinite_toJson (d : Diagnostic) : d.toJson.isFinite = true := by
  cases hs : d.suggestion <;> simp [toJson, hs, Json.isFinite, Json.membersFinite, Json.nat]

/-- The members of a diagnostic give it back. -/
theorem ofJson?_toJson {d : Diagnostic} (h : d.span.IsPlace) : ofJson? d.toJson = some d := by
  obtain ⟨hstartLine, hstartCol, hendLine, hendCol⟩ := h
  have hcode := below?_nat (number_lt_codeLimit d.code)
  have hdepth := depth_toJson d
  have hfinite := isFinite_toJson d
  simp only [toJson] at hdepth hfinite
  simp only [toJson, ofJson?, hdepth, hfinite]
  cases hs : d.suggestion <;>
    simp [ofMembers?, required?, optionalString?, tag?, Json.valuesOf, Json.string?, below?_nat,
      maxDepth, hcode, hstartLine, hstartCol, hendLine, hendCol, ← hs]

theorem read?_of_text {d : Diagnostic} {text : String} (h : d.span.IsPlace)
    (htext : Json.read? text = some d.toJson) : read? text = some d := by
  rw [read?, htext, Option.bind_some, ofJson?_toJson h]

/-- A diagnostic is read back from its JSON text, compact or pretty. Its members are always the
same, in the same order; the place is spread over four of them, and there is one for the suggestion
exactly if there is a suggestion. -/
theorem json_text_read_back (d : Diagnostic) (h : d.span.IsPlace) :
    read? d.toJson.compactText = some d ∧ read? d.toJson.prettyText = some d
      ∧ ∃ members, d.toJson = .object members
        ∧ members.map Prod.fst =
          (["origin", "code", "severity", "category", "message", "line", "column", "end_line",
            "end_column", "source_line"] ++ if d.suggestion.isSome then ["suggestion"] else [])
        ∧ members.lookup "line" = some (.nat d.span.startLine)
        ∧ members.lookup "column" = some (.nat d.span.startCol)
        ∧ members.lookup "end_line" = some (.nat d.span.endLine)
        ∧ members.lookup "end_column" = some (.nat d.span.endCol)
        ∧ members.lookup "suggestion" = d.suggestion.map .string := by
  have hexact := exact_toJson h
  refine ⟨read?_of_text h (Json.read?_compactText hexact),
    read?_of_text h (Json.read?_prettyText hexact), _, rfl, ?_⟩
  cases d.suggestion <;> simp [List.lookup_cons]

/-- A place at the very end of the range, a code that nobody gives out, and every kind of
character that is not written as itself. -/
def unusual : Diagnostic where
  origin := "\x00\x1f\x7f\\\"/"
  code := ⟨65535⟩
  severity := .warning
  category := .overall
  message := "tab\tline\nreturn\r\x08\x0c"
  span := ⟨0, 4294967295, 4294967295, 0⟩
  sourceLine := "é 中 😀 \\u0041"
  suggestion := some ""

theorem json_text_read_back_unusual :
    unusual.span.IsPlace ∧ read? unusual.toJson.compactText = some unusual
      ∧ read? unusual.toJson.prettyText = some unusual :=
  have hplace : unusual.span.IsPlace := by
    simp only [Span.IsPlace, unusual, placeLimit]
    decide
  have h := json_text_read_back unusual hplace
  ⟨hplace, h.1, h.2.1⟩

end Diagnostic
end StackForge
