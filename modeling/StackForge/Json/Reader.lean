import StackForge.Json.Number

/-!
Reading JSON. A reader takes the text that is left and gives a value with the rest, which is
always shorter; it refuses text that is not JSON. Nothing is decided here about duplicate members
or the size of numbers. Values that nobody will look at are read loosely: their form is checked,
but not what their strings stand for.
-/
namespace StackForge.Json

/-- A value and the text after it, which is shorter than `bound`. -/
structure Reading (α : Type) (bound : Nat) where
  value : α
  rest : List Char
  fits : rest.length < bound

def Reading.map {α β : Type} {n m : Nat} (f : α → β) (r : Reading α n) (h : n ≤ m) :
    Reading β m :=
  ⟨f r.value, r.rest, Nat.lt_of_lt_of_le r.fits h⟩

def isBlank (c : Char) : Bool := c = ' ' || c = '\n' || c = '\t' || c = '\r'

def skipBlanks (cs : List Char) : List Char := cs.dropWhile isBlank

theorem length_lt_of_skipBlanks {cs rest : List Char} {c : Char}
    (h : skipBlanks cs = c :: rest) : rest.length < cs.length := by
  have := (List.dropWhile_suffix (l := cs) isBlank).length_le
  simp only [skipBlanks] at h
  simp [h] at this
  omega

/-- The value of a hexadecimal digit. -/
def hexValue? (c : Char) : Option Nat :=
  let n := c.toNat
  if 48 ≤ n && n ≤ 57 then some (n - 48)
  else if 97 ≤ n && n ≤ 102 then some (n - 87)
  else if 65 ≤ n && n ≤ 70 then some (n - 55)
  else none

/-- Four hexadecimal digits. -/
def codeUnit? (a b c d : Char) : Option Nat := do
  let digit := hexValue?
  return ((← digit a) * 16 + (← digit b)) * 256 + (← digit c) * 16 + (← digit d)

def simpleEscape? (c : Char) : Option Char :=
  match c.toNat with
  | 0x22 => some c
  | 0x5c => some c
  | 0x2f => some c
  | 0x62 => some '\x08'
  | 0x66 => some '\x0c'
  | 0x6e => some '\n'
  | 0x72 => some '\r'
  | 0x74 => some '\t'
  | _ => none

def isHighHalf (u : Nat) : Bool := 0xd800 ≤ u && u < 0xdc00

def isLowHalf (u : Nat) : Bool := 0xdc00 ≤ u && u < 0xe000

/-- The character that two halves stand for. -/
def pairChar (high low : Nat) : Char :=
  Char.ofNat (0x10000 + (high - 0xd800) * 0x400 + (low - 0xdc00))

/-- The rest of a string whose opening quote has been read. A code unit that is half of a pair
does not stand alone. -/
def readString : (cs : List Char) → Option (Reading (List Char) cs.length)
  | '\\' :: 'u' :: a :: b :: c :: d :: rest =>
    match codeUnit? a b c d with
    | none => none
    | some u =>
      if isHighHalf u then
        match rest with
        | '\\' :: 'u' :: a' :: b' :: c' :: d' :: rest' =>
          match codeUnit? a' b' c' d' with
          | some v =>
            if isLowHalf v then
              (readString rest').map (·.map (pairChar u v :: ·) (by simp; omega))
            else none
          | none => none
        | _ => none
      else if isLowHalf u then none
      else (readString rest).map (·.map (Char.ofNat u :: ·) (by simp; omega))
  | '\\' :: c :: rest =>
    match simpleEscape? c with
    | some ch => (readString rest).map (·.map (ch :: ·) (by simp; omega))
    | none => none
  | c :: rest =>
    if c = quoteMark then some ⟨[], rest, by simp⟩
    else if c.toNat < 0x20 || c = '\\' then none
    else (readString rest).map (·.map (c :: ·) (by simp))
  | [] => none

/-- The rest of a string that nobody will look at: every code unit may stand alone. -/
def skipString : (cs : List Char) → Option (Reading Unit cs.length)
  | '\\' :: 'u' :: a :: b :: c :: d :: rest =>
    match codeUnit? a b c d with
    | none => none
    | some _ => (skipString rest).map (·.map id (by simp; omega))
  | '\\' :: c :: rest =>
    match simpleEscape? c with
    | some _ => (skipString rest).map (·.map id (by simp; omega))
    | none => none
  | c :: rest =>
    if c = quoteMark then some ⟨(), rest, by simp⟩
    else if c.toNat < 0x20 || c = '\\' then none
    else (skipString rest).map (·.map id (by simp))
  | [] => none

/-- The rest of a string; read loosely it counts as empty. -/
def readText (loose : Bool) (cs : List Char) : Option (Reading String cs.length) :=
  if loose then (skipString cs).map (·.map (fun _ => "") (Nat.le_refl _))
  else (readString cs).map (·.map String.ofList (Nat.le_refl _))

/-- A value without parts, at the start of the text. -/
def readScalar : List Char → Option (Json × List Char)
  | 'n' :: 'u' :: 'l' :: 'l' :: rest => some (.null, rest)
  | 't' :: 'r' :: 'u' :: 'e' :: rest => some (.bool true, rest)
  | 'f' :: 'a' :: 'l' :: 's' :: 'e' :: rest => some (.bool false, rest)
  | cs => readNumber cs

/-- Keep a reading whose rest is shorter; the readers of scalars always consume something. -/
def Reading.ofPair? {α : Type} (bound : Nat) (r : α × List Char) : Option (Reading α bound) :=
  if h : r.2.length < bound then some ⟨r.1, r.2, h⟩ else none

mutual

/-- A value after any blanks. The members of an object are read loosely where `looseAt` says so. -/
def readValue (loose : Bool) (looseAt : String → Bool) (cs : List Char) :
    Option (Reading Json cs.length) :=
  match h : skipBlanks cs with
  | [] => none
  | c :: rest =>
    have hlt := length_lt_of_skipBlanks h
    if c = quoteMark then (readText loose rest).map (·.map .string (by omega))
    else if c = '[' then
      match skipBlanks rest with
      | ']' :: after => Reading.ofPair? cs.length (.array [], after)
      | _ => (readItems loose rest).map (·.map .array (by omega))
    else if c = '\x7b' then
      match skipBlanks rest with
      | '\x7d' :: after => Reading.ofPair? cs.length (.object [], after)
      | _ => (readMembers loose looseAt rest).map (·.map .object (by omega))
    else (readScalar (c :: rest)).bind (Reading.ofPair? cs.length)
  termination_by (cs.length, 0)

/-- At least one item, up to the closing bracket. -/
def readItems (loose : Bool) (cs : List Char) : Option (Reading (List Json) cs.length) :=
  match readValue loose (fun _ => loose) cs with
  | none => none
  | some first =>
    have := first.fits
    match h : skipBlanks first.rest with
    | ',' :: rest =>
      have hlt := length_lt_of_skipBlanks h
      (readItems loose rest).map (·.map (first.value :: ·) (by omega))
    | ']' :: rest => Reading.ofPair? cs.length ([first.value], rest)
    | _ => none
  termination_by (cs.length, 1)

/-- At least one member, up to the closing brace. -/
def readMembers (loose : Bool) (looseAt : String → Bool) (cs : List Char) :
    Option (Reading (List (String × Json)) cs.length) :=
  match h₁ : skipBlanks cs with
  | [] => none
  | c :: rest =>
    have hlt := length_lt_of_skipBlanks h₁
    if c = quoteMark then
      match readText loose rest with
      | none => none
      | some key =>
        have := key.fits
        match h₂ : skipBlanks key.rest with
        | ':' :: rest' =>
          have hlt' := length_lt_of_skipBlanks h₂
          match readValue (looseAt key.value) (fun _ => looseAt key.value) rest' with
          | none => none
          | some first =>
            have := first.fits
            let member := (key.value, first.value)
            match h₃ : skipBlanks first.rest with
            | ',' :: rest'' =>
              have hlt'' := length_lt_of_skipBlanks h₃
              (readMembers loose looseAt rest'').map (·.map (member :: ·) (by omega))
            | '\x7d' :: rest'' => Reading.ofPair? cs.length ([member], rest'')
            | _ => none
        | _ => none
    else none
  termination_by (cs.length, 2)

end

/-- A whole text: one value and nothing but blanks after it. An object's own members are read
loosely where `looseAt` says so. -/
def readWhole? (looseAt : String → Bool) (text : String) : Option Json :=
  match readValue false looseAt text.toList with
  | some r => if (skipBlanks r.rest).isEmpty then some r.value else none
  | none => none

/-- A whole text, all of which counts. -/
def read? (text : String) : Option Json := readWhole? (fun _ => false) text

/-- A whole text. If it is an object, only the members with these names count. -/
def readKnown? (names : List String) (text : String) : Option Json :=
  readWhole? (fun name => name ∉ names) text

mutual

/-- How deep arrays and objects are nested. -/
def depth : Json → Nat
  | .array items => depthItems items + 1
  | .object members => depthMembers members + 1
  | _ => 0

def depthItems : List Json → Nat
  | [] => 0
  | v :: rest => max (depth v) (depthItems rest)

def depthMembers : List (String × Json) → Nat
  | [] => 0
  | (_, v) :: rest => max (depth v) (depthMembers rest)

end

mutual

/-- Whether every number of the value is a finite double. -/
def isFinite : Json → Bool
  | .decimal x => x.isFinite
  | .array items => allFinite items
  | .object members => membersFinite members
  | _ => true

def allFinite : List Json → Bool
  | [] => true
  | v :: rest => isFinite v && allFinite rest

def membersFinite : List (String × Json) → Bool
  | [] => true
  | (_, v) :: rest => isFinite v && membersFinite rest

end

/-- All values of members with this name, in order. -/
def valuesOf (key : String) (members : List (String × Json)) : List Json :=
  (members.filter fun m => m.1 = key).map (·.2)

end StackForge.Json
