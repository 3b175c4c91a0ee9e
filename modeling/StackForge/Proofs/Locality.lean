import StackForge.Proofs.Parsing

/-!
The parsers of expressions do not look behind a semicolon or the end mark. Whether they give a value
or a fault, they stop in front of it at the latest, and what they come to depends on the words
before it only.
-/
namespace StackForge

open Token (Kind)

/-- What a parser comes to: a value or a fault, and the words that are left. -/
abbrev Outcome (α : Type) := Except SyntaxFault α × List Token

namespace Outcome

variable {α β : Type}

/-- Go on with a value and the words behind it. -/
def next (o : Outcome α) (k : α → List Token → Outcome β) : Outcome β :=
  match o with
  | (.ok a, rest) => k a rest
  | (.error fault, rest) => (.error fault, rest)

def map (f : α → β) (o : Outcome α) : Outcome β := o.next fun a rest => (.ok (f a), rest)

@[simp] theorem next_ok (a : α) (rest : List Token) (k : α → List Token → Outcome β) :
    next (.ok a, rest) k = k a rest := rfl

@[simp] theorem next_error (fault : SyntaxFault) (rest : List Token)
    (k : α → List Token → Outcome β) : next (.error fault, rest) k = (.error fault, rest) := rfl

@[simp] theorem map_id (o : Outcome α) : o.map id = o := by
  obtain ⟨fault | a, rest⟩ := o <;> rfl

end Outcome

namespace Parse

variable {α β : Type} {n m : Nat}

def outcome : Parse α n → Outcome α
  | .ok a rest _ => (.ok a, rest)
  | .fail fault rest _ => (.error fault, rest)

@[simp] theorem outcome_ok (a : α) (rest : List Token) (fits : rest.length < n) :
    (Parse.ok a rest fits).outcome = (.ok a, rest) := rfl

@[simp] theorem outcome_fail (fault : SyntaxFault) (rest : List Token) (fits : rest.length ≤ n) :
    (Parse.fail fault rest fits : Parse α n).outcome = (.error fault, rest) := rfl

@[simp] theorem outcome_map (f : α → β) (h : n ≤ m) (p : Parse α n) :
    (p.map f h).outcome = p.outcome.map f := by
  cases p <;> rfl

end Parse

namespace Expr

theorem outcome_parseClose_cons (t : Token) (ts : List Token) :
    (parseClose (t :: ts)).outcome
      = if t.kind = .rparen then (.ok t.span, ts)
        else (.error (.expected .rparen t.kind), t :: ts) := by
  rw [parseClose]
  split <;> rfl

theorem outcome_parseSum (ts : List Token) :
    (parseSum ts).outcome
      = (parseProduct ts).outcome.next fun e rest => (parseSumTail e rest).outcome := by
  rw [parseSum]
  split <;> simp [*]

theorem outcome_parseSumTail_cons (left : Expr) (t : Token) (ts : List Token) :
    (parseSumTail left (t :: ts)).outcome
      = match sumOp? t.kind with
        | none => (.ok left, t :: ts)
        | some op => (parseProduct ts).outcome.next fun e rest =>
            (parseSumTail (join op left e) rest).outcome := by
  rw [parseSumTail]
  split
  · simp [*]
  · split <;> simp [*]

theorem outcome_parseProduct (ts : List Token) :
    (parseProduct ts).outcome
      = (parseUnary ts).outcome.next fun e rest => (parseProductTail e rest).outcome := by
  rw [parseProduct]
  split <;> simp [*]

theorem outcome_parseProductTail_cons (left : Expr) (t : Token) (ts : List Token) :
    (parseProductTail left (t :: ts)).outcome
      = match productOp? t.kind with
        | none => (.ok left, t :: ts)
        | some op => (parseUnary ts).outcome.next fun e rest =>
            (parseProductTail (join op left e) rest).outcome := by
  rw [parseProductTail]
  split
  · simp [*]
  · split <;> simp [*]

theorem outcome_parseUnary_cons (t : Token) (ts : List Token) :
    (parseUnary (t :: ts)).outcome
      = if t.kind = .minus then
          (parseUnary ts).outcome.map fun e => .neg e (t.span.merge e.span)
        else (parsePostfix (t :: ts)).outcome := by
  rw [parseUnary]
  split <;> simp

theorem outcome_parsePostfix (ts : List Token) :
    (parsePostfix ts).outcome
      = (parsePrimary ts).outcome.next fun e rest => (parsePostfixTail e rest).outcome := by
  rw [parsePostfix]
  split <;> simp [*]

theorem outcome_parsePostfixTail_cons (e : Expr) (t : Token) (ts : List Token) :
    (parsePostfixTail e (t :: ts)).outcome
      = if t.kind = .question then
          (parsePostfixTail (.attempt e (e.span.merge t.span)) ts).outcome
        else if t.kind = .dot then
          match ts with
          | [] => (.error (.expectedIdentifier .eof), [])
          | n :: rest =>
            match n.kind with
            | .identifier name =>
              if headKind rest = .lparen then
                (parseArgs rest).outcome.next fun args r =>
                  (parsePostfixTail
                    (.method e ⟨name, n.span⟩ args.1 (e.span.merge args.2)) r).outcome
              else (.error (.fieldAccess name), rest)
            | other => (.error (.expectedIdentifier other), n :: rest)
        else (.ok e, t :: ts) := by
  rw [parsePostfixTail.eq_def]
  by_cases hquestion : t.kind = .question
  · simp [hquestion]
  · by_cases hdot : t.kind = .dot
    · cases ts with
      | nil => simp [hdot]
      | cons n rest =>
        simp only [hdot, reduceCtorEq, if_false, if_true]
        split
        · split
          · split <;> simp [*]
          · simp [*]
        · simp
    · simp [hquestion, hdot]

theorem outcome_parsePrimary_cons (t : Token) (ts : List Token) :
    (parsePrimary (t :: ts)).outcome
      = match t.kind with
        | .number value => (.ok (.number value t.span), ts)
        | .identifier name =>
          if headKind ts = .lparen then
            (parseArgs ts).outcome.map fun args =>
              .call ⟨name, t.span⟩ args.1 (t.span.merge args.2)
          else (.ok (.var ⟨name, t.span⟩), ts)
        | .lparen => (parseSum ts).outcome.next fun e rest =>
            (parseClose rest).outcome.map fun close => .paren e (t.span.merge close)
        | other => (.error (.expectedExpression other), t :: ts) := by
  rw [parsePrimary]
  split
  · simp [*]
  · split <;> simp [*]
  · split <;> simp [*]
  · simp

theorem outcome_parseArgs_cons (t : Token) (ts : List Token) :
    (parseArgs (t :: ts)).outcome
      = if t.kind = .lparen then (parseArgsTail ts).outcome
        else (.error (.expected .lparen t.kind), t :: ts) := by
  rw [parseArgs]
  split <;> simp

/-- What follows an argument: a comma and more arguments, or the end of them. -/
def argsRest (e : Expr) : List Token → Outcome (List Expr × Span)
  | [] => (.error (.expected .rparen .eof), [])
  | t :: rest =>
    if t.kind = .comma then (parseArgsTail rest).outcome.map fun args => (e :: args.1, args.2)
    else (parseClose (t :: rest)).outcome.map fun close => ([e], close)

theorem outcome_parseArgsTail (ts : List Token) :
    (parseArgsTail ts).outcome
      = if headKind ts = .rparen || headKind ts = .eof then
          (parseClose ts).outcome.map fun close => ([], close)
        else (parseSum ts).outcome.next argsRest := by
  rw [parseArgsTail]
  split
  · simp
  · split
    · simp [*]
    · split
      · simp [argsRest, *]
      · split <;> simp [argsRest, *]

end Expr

/-- The words that no expression goes past. -/
def Bars (k : Kind) : Prop := k = .semicolon ∨ k = .eof

/-- Words before a mark settle what a reader comes to, whatever is behind the mark, and the mark is
left in its place. -/
def Settles {α : Type} (mark : Token) (words : List Token) (read : List Token → Outcome α) : Prop :=
  ∃ result left, left <:+ words ∧
    ∀ behind, read (words ++ mark :: behind) = (result, left ++ mark :: behind)

namespace Settles

variable {α β : Type} {mark : Token} {words : List Token} {read : List Token → Outcome α}

/-- Nothing is read. -/
theorem stop (result : Except SyntaxFault α)
    (h : ∀ behind, read (words ++ mark :: behind) = (result, words ++ mark :: behind)) :
    Settles mark words read :=
  ⟨result, words, List.suffix_rfl, h⟩

/-- The reader goes on as another one from a later word. -/
theorem later {words' : List Token} {read' : List Token → Outcome α}
    (h : Settles mark words' read') (hsuffix : words' <:+ words)
    (heq : ∀ behind, read (words ++ mark :: behind) = read' (words' ++ mark :: behind)) :
    Settles mark words read := by
  obtain ⟨result, left, hleft, hread⟩ := h
  exact ⟨result, left, hleft.trans hsuffix, fun behind => by rw [heq, hread]⟩

/-- Readers in a row. -/
theorem next (h : Settles mark words read) {k : α → List Token → Outcome β}
    (hk : ∀ a left, left <:+ words → Settles mark left (k a)) :
    Settles mark words fun ts => (read ts).next k := by
  obtain ⟨result, left, hleft, hread⟩ := h
  cases result with
  | error fault =>
    exact ⟨.error fault, left, hleft, fun behind => by simp only [hread, Outcome.next_error]⟩
  | ok a =>
    obtain ⟨result, left', hleft', hread'⟩ := hk a left hleft
    refine ⟨result, left', hleft'.trans hleft, fun behind => ?_⟩
    simp only [hread, Outcome.next_ok, hread']

theorem map (h : Settles mark words read) (f : α → β) :
    Settles mark words fun ts => (read ts).map f :=
  h.next fun a _ _ => .stop (.ok (f a)) fun _ => rfl

end Settles

/-- The word at the front of words and a mark. -/
theorem headKind_append (words behind : List Token) (mark : Token) :
    headKind (words ++ mark :: behind) = headKind (words ++ [mark]) := by
  cases words <;> rfl

namespace Expr

variable {mark : Token}

theorem close_settles (hmark : Bars mark.kind) (words : List Token) :
    Settles mark words fun ts => (parseClose ts).outcome := by
  cases words with
  | nil =>
    refine .stop (.error (.expected .rparen mark.kind)) fun behind => ?_
    rcases hmark with hmark | hmark <;> simp [outcome_parseClose_cons, hmark]
  | cons t ts =>
    by_cases ht : t.kind = .rparen
    · refine ⟨.ok t.span, ts, List.suffix_cons t ts, fun behind => ?_⟩
      simp [outcome_parseClose_cons, ht]
    · refine .stop (.error (.expected .rparen t.kind)) fun behind => ?_
      simp [outcome_parseClose_cons, ht]

-- The recursion is the parsers' own, with their measure on the words before the mark.
mutual

theorem sum_settles (hmark : Bars mark.kind) (words : List Token) :
    Settles mark words fun ts => (parseSum ts).outcome := by
  simp only [outcome_parseSum]
  exact (product_settles hmark words).next fun e left hleft =>
    have := hleft.length_le
    sumTail_settles hmark e left
  termination_by 8 * words.length + 6

theorem sumTail_settles (hmark : Bars mark.kind) (left : Expr) (words : List Token) :
    Settles mark words fun ts => (parseSumTail left ts).outcome := by
  cases words with
  | nil =>
    refine .stop (.ok left) fun behind => ?_
    rcases hmark with hmark | hmark <;> simp [outcome_parseSumTail_cons, hmark, sumOp?]
  | cons t ts =>
    cases hop : sumOp? t.kind with
    | none =>
      refine .stop (.ok left) fun behind => ?_
      simp [outcome_parseSumTail_cons, hop]
    | some op =>
      have hright := (product_settles hmark ts).next fun e left' hleft =>
        have := hleft.length_le
        sumTail_settles hmark (join op left e) left'
      refine hright.later (List.suffix_cons t ts) fun behind => ?_
      simp [outcome_parseSumTail_cons, hop]
  termination_by 8 * words.length

theorem product_settles (hmark : Bars mark.kind) (words : List Token) :
    Settles mark words fun ts => (parseProduct ts).outcome := by
  simp only [outcome_parseProduct]
  exact (unary_settles hmark words).next fun e left hleft =>
    have := hleft.length_le
    productTail_settles hmark e left
  termination_by 8 * words.length + 5

theorem productTail_settles (hmark : Bars mark.kind) (left : Expr) (words : List Token) :
    Settles mark words fun ts => (parseProductTail left ts).outcome := by
  cases words with
  | nil =>
    refine .stop (.ok left) fun behind => ?_
    rcases hmark with hmark | hmark <;> simp [outcome_parseProductTail_cons, hmark, productOp?]
  | cons t ts =>
    cases hop : productOp? t.kind with
    | none =>
      refine .stop (.ok left) fun behind => ?_
      simp [outcome_parseProductTail_cons, hop]
    | some op =>
      have hright := (unary_settles hmark ts).next fun e left' hleft =>
        have := hleft.length_le
        productTail_settles hmark (join op left e) left'
      refine hright.later (List.suffix_cons t ts) fun behind => ?_
      simp [outcome_parseProductTail_cons, hop]
  termination_by 8 * words.length

theorem unary_settles (hmark : Bars mark.kind) (words : List Token) :
    Settles mark words fun ts => (parseUnary ts).outcome := by
  cases words with
  | nil =>
    refine (postfix_settles hmark []).later List.suffix_rfl fun behind => ?_
    rcases hmark with hmark | hmark <;> simp [outcome_parseUnary_cons, hmark]
  | cons t ts =>
    by_cases ht : t.kind = .minus
    · have hinner := (unary_settles hmark ts).map fun e => Expr.neg e (t.span.merge e.span)
      refine hinner.later (List.suffix_cons t ts) fun behind => ?_
      simp [outcome_parseUnary_cons, ht]
    · refine (postfix_settles hmark (t :: ts)).later List.suffix_rfl fun behind => ?_
      simp [outcome_parseUnary_cons, ht]
  termination_by 8 * words.length + 4

theorem postfix_settles (hmark : Bars mark.kind) (words : List Token) :
    Settles mark words fun ts => (parsePostfix ts).outcome := by
  simp only [outcome_parsePostfix]
  exact (primary_settles hmark words).next fun e left hleft =>
    have := hleft.length_le
    postfixTail_settles hmark e left
  termination_by 8 * words.length + 3

theorem postfixTail_settles (hmark : Bars mark.kind) (e : Expr) (words : List Token) :
    Settles mark words fun ts => (parsePostfixTail e ts).outcome := by
  match words with
  | [] =>
    refine .stop (.ok e) fun behind => ?_
    rcases hmark with hmark | hmark <;> simp [outcome_parsePostfixTail_cons, hmark]
  | t :: ts =>
    by_cases hquestion : t.kind = .question
    · have htail := postfixTail_settles hmark (.attempt e (e.span.merge t.span)) ts
      refine htail.later (List.suffix_cons t ts) fun behind => ?_
      simp [outcome_parsePostfixTail_cons, hquestion]
    · by_cases hdot : t.kind = .dot
      · match ts with
        | [] =>
          refine ⟨.error (.expectedIdentifier mark.kind), [], List.nil_suffix, fun behind => ?_⟩
          rcases hmark with hmark | hmark <;> simp [outcome_parsePostfixTail_cons, hdot, hmark]
        | n :: rest =>
          have hsuffix : rest <:+ t :: n :: rest := ⟨[t, n], rfl⟩
          cases hn : n.kind with
          | identifier name =>
            by_cases hargs : headKind (rest ++ [mark]) = .lparen
            · have htail := (args_settles hmark rest).next fun args left hleft =>
                have := hleft.length_le
                postfixTail_settles hmark
                  (.method e ⟨name, n.span⟩ args.1 (e.span.merge args.2)) left
              refine htail.later hsuffix fun behind => ?_
              simp [outcome_parsePostfixTail_cons, hdot, hn, headKind_append rest behind, hargs]
            · refine ⟨.error (.fieldAccess name), rest, hsuffix, fun behind => ?_⟩
              simp [outcome_parsePostfixTail_cons, hdot, hn, headKind_append rest behind, hargs]
          | _ =>
            refine ⟨.error (.expectedIdentifier n.kind), n :: rest, List.suffix_cons t _,
              fun behind => ?_⟩
            simp [outcome_parsePostfixTail_cons, hdot, hn]
      · refine .stop (.ok e) fun behind => ?_
        simp [outcome_parsePostfixTail_cons, hquestion, hdot]
  termination_by 8 * words.length

theorem primary_settles (hmark : Bars mark.kind) (words : List Token) :
    Settles mark words fun ts => (parsePrimary ts).outcome := by
  cases words with
  | nil =>
    refine .stop (.error (.expectedExpression mark.kind)) fun behind => ?_
    rcases hmark with hmark | hmark <;> simp [outcome_parsePrimary_cons, hmark]
  | cons t ts =>
    cases ht : t.kind with
    | number value =>
      refine ⟨.ok (.number value t.span), ts, List.suffix_cons t ts, fun behind => ?_⟩
      simp [outcome_parsePrimary_cons, ht]
    | identifier name =>
      by_cases hargs : headKind (ts ++ [mark]) = .lparen
      · have hcall := (args_settles hmark ts).map fun args =>
          Expr.call ⟨name, t.span⟩ args.1 (t.span.merge args.2)
        refine hcall.later (List.suffix_cons t ts) fun behind => ?_
        simp [outcome_parsePrimary_cons, ht, headKind_append ts behind, hargs]
      · refine ⟨.ok (.var ⟨name, t.span⟩), ts, List.suffix_cons t ts, fun behind => ?_⟩
        simp [outcome_parsePrimary_cons, ht, headKind_append ts behind, hargs]
    | lparen =>
      have hparen := (sum_settles hmark ts).next fun e left _ =>
        (close_settles hmark left).map fun close => Expr.paren e (t.span.merge close)
      refine hparen.later (List.suffix_cons t ts) fun behind => ?_
      simp [outcome_parsePrimary_cons, ht]
    | _ =>
      refine .stop (.error (.expectedExpression t.kind)) fun behind => ?_
      simp [outcome_parsePrimary_cons, ht]
  termination_by 8 * words.length + 2

theorem args_settles (hmark : Bars mark.kind) (words : List Token) :
    Settles mark words fun ts => (parseArgs ts).outcome := by
  cases words with
  | nil =>
    refine .stop (.error (.expected .lparen mark.kind)) fun behind => ?_
    rcases hmark with hmark | hmark <;> simp [outcome_parseArgs_cons, hmark]
  | cons t ts =>
    by_cases ht : t.kind = .lparen
    · refine (argsTail_settles hmark ts).later (List.suffix_cons t ts) fun behind => ?_
      simp [outcome_parseArgs_cons, ht]
    · refine .stop (.error (.expected .lparen t.kind)) fun behind => ?_
      simp [outcome_parseArgs_cons, ht]
  termination_by 8 * words.length + 1

theorem argsTail_settles (hmark : Bars mark.kind) (words : List Token) :
    Settles mark words fun ts => (parseArgsTail ts).outcome := by
  by_cases hempty : headKind (words ++ [mark]) = .rparen ∨ headKind (words ++ [mark]) = .eof
  · have hclose := (close_settles hmark words).map fun close => (([] : List Expr), close)
    refine hclose.later List.suffix_rfl fun behind => ?_
    simp [outcome_parseArgsTail, headKind_append words behind, hempty]
  · have hitems := (sum_settles hmark words).next fun e left hleft =>
      have := hleft.length_le
      argsRest_settles hmark e left
    refine hitems.later List.suffix_rfl fun behind => ?_
    simp [outcome_parseArgsTail, headKind_append words behind, hempty]
  termination_by 8 * words.length + 7

theorem argsRest_settles (hmark : Bars mark.kind) (e : Expr) (words : List Token) :
    Settles mark words (argsRest e) := by
  cases words with
  | nil =>
    have hclose := (close_settles hmark []).map fun close => ([e], close)
    refine hclose.later List.suffix_rfl fun behind => ?_
    rcases hmark with hmark | hmark <;> simp [argsRest, hmark]
  | cons t ts =>
    by_cases ht : t.kind = .comma
    · have hmore := (argsTail_settles hmark ts).map fun args => (e :: args.1, args.2)
      refine hmore.later (List.suffix_cons t ts) fun behind => ?_
      simp [argsRest, ht]
    · have hclose := (close_settles hmark (t :: ts)).map fun close => ([e], close)
      refine hclose.later List.suffix_rfl fun behind => ?_
      simp [argsRest, ht]
  termination_by 8 * words.length

end

end Expr
end StackForge
