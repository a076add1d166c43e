/-
  CoreCalculus/Proofs/Tokens.lean
  ===============================
  **The tokens of a printed term.**

  A space ends a word, a parenthesis, a backslash or a dot ends it and is a token of its
  own; what is between them is a numeral, a keyword or a name.  The printer puts a space
  or such a sign between any two words, so the tokens of a term are those of its parts
  with a few keywords between them: one equation for each form of a term.

  Names are told from the other words by their first letter, and constructors from
  variables too.  What the letters are is left open (`Alphabet`): those of ASCII are among
  them, and no sign and no digit is upper or lower case.
-/
import CoreCalculus.Proofs.Words
import CoreCalculus.Term.Printer

namespace CoreCalculus

/-! ### Names -/

/-- The signs of the language, and those that a name may have besides letters and digits. -/
def signs : List Char := " ()\\.+-*/=<>|_'".toList

namespace Ascii

variable {c : Char}

theorem isLower_iff : c.isLower ↔ 97 ≤ c.toNat ∧ c.toNat ≤ 122 := by
  change (decide (97 ≤ c.val) && decide (c.val ≤ 122)) = true ↔ _
  rw [Bool.and_eq_true, decide_eq_true_eq, decide_eq_true_eq]
  exact and_congr UInt32.le_iff_toNat_le UInt32.le_iff_toNat_le

theorem isUpper_iff : c.isUpper ↔ 65 ≤ c.toNat ∧ c.toNat ≤ 90 := by
  change decide (65 ≤ c.val ∧ c.val ≤ 90) = true ↔ _
  rw [decide_eq_true_eq]
  exact and_congr UInt32.le_iff_toNat_le UInt32.le_iff_toNat_le

theorem isDigit_iff : c.isDigit ↔ 48 ≤ c.toNat ∧ c.toNat ≤ 57 := by
  change (decide (48 ≤ c.val) && decide (c.val ≤ 57)) = true ↔ _
  rw [Bool.and_eq_true, decide_eq_true_eq, decide_eq_true_eq]
  exact and_congr UInt32.le_iff_toNat_le UInt32.le_iff_toNat_le

theorem isAlphanum_eq : c.isAlphanum = (c.isUpper || c.isLower || c.isDigit) := rfl

theorem not_isUpper_of_isLower (h : c.isLower) : ¬ c.isUpper := by
  rw [isLower_iff] at h
  rw [isUpper_iff]
  omega

theorem not_isDigit_of_letter (h : c.isLower ∨ c.isUpper) : ¬ c.isDigit := by
  rw [isLower_iff, isUpper_iff] at h
  rw [isDigit_iff]
  omega

/-- No letter and no digit of ASCII is a sign. -/
theorem not_mem_signs (h : c.isLower ∨ c.isUpper ∨ c.isAlphanum) : c ∉ signs := by
  intro hsign
  have halphanum : c.isAlphanum := by
    rcases h with h | h | h
    · rw [isAlphanum_eq, h, Bool.or_true, Bool.true_or]
    · rw [isAlphanum_eq, h, Bool.true_or, Bool.true_or]
    · exact h
  have hsigns : signs.all fun c => !c.isAlphanum := by decide
  have hc := List.all_eq_true.1 hsigns c hsign
  rw [halphanum] at hc
  cases hc

end Ascii

/-- The letters, by case, and the letters and digits. -/
structure Alphabet where
  isLower : Char → Bool
  isUpper : Char → Bool
  isAlphanumeric : Char → Bool
  lower_of_ascii {c : Char} : c.isLower → isLower c
  upper_of_ascii {c : Char} : c.isUpper → isUpper c
  one_case {c : Char} : isLower c → ¬ isUpper c
  not_sign {c : Char} : isLower c ∨ isUpper c ∨ isAlphanumeric c → c ∉ signs
  not_digit {c : Char} : isLower c ∨ isUpper c → ¬ c.isDigit

/-- The words that are no variables. -/
def reserved : List String :=
  ["if", "then", "else", "match", "with", "rec", "not", "and", "or"]

namespace Alphabet

/-- The letters and digits of ASCII. -/
def ascii : Alphabet where
  isLower := Char.isLower
  isUpper := Char.isUpper
  isAlphanumeric := Char.isAlphanum
  lower_of_ascii := id
  upper_of_ascii := id
  one_case := Ascii.not_isUpper_of_isLower
  not_sign := Ascii.not_mem_signs
  not_digit := Ascii.not_isDigit_of_letter

variable (A : Alphabet)

/-- A letter, a digit, an underscore or an apostrophe. -/
def continues (c : Char) : Bool := A.isAlphanumeric c || c = '_' || c = '\x27'

/-- A lowercase letter or an underscore, and what may follow it. -/
def isVariable (x : String) : Bool :=
  match x.toList with
  | [] => false
  | c :: cs => (A.isLower c || c = '_') && cs.all A.continues && x ∉ reserved

/-- An uppercase letter, and what may follow it. -/
def isConstructor (name : String) : Bool :=
  match name.toList with
  | [] => false
  | c :: cs => A.isUpper c && cs.all A.continues && name ∉ ["True", "False"]

end Alphabet

mutual

/-- All names of a pattern are names of their kind. -/
def Pattern.isSpelled (A : Alphabet) : Pattern → Bool
  | .var x => A.isVariable x
  | .lit _ => true
  | .ctor name subs => A.isConstructor name && Pattern.allSpelled A subs

def Pattern.allSpelled (A : Alphabet) : List Pattern → Bool
  | [] => true
  | p :: ps => p.isSpelled A && Pattern.allSpelled A ps

end

mutual

/-- All names of a term, those of its binders and patterns among them, are names of their
    kind. -/
def Term.isSpelled (A : Alphabet) : Term → Bool
  | .var x => A.isVariable x
  | .lit _ => true
  | .ctor name => A.isConstructor name
  | .app f a => f.isSpelled A && a.isSpelled A
  | .abs x t => A.isVariable x && t.isSpelled A
  | .fix x t => A.isVariable x && t.isSpelled A
  | .binary _ a b => a.isSpelled A && b.isSpelled A
  | .not a => a.isSpelled A
  | .cond a b e => a.isSpelled A && b.isSpelled A && e.isSpelled A
  | .select a cases => a.isSpelled A && Term.casesSpelled A cases

def Term.casesSpelled (A : Alphabet) : List (Pattern × Term) → Bool
  | [] => true
  | (p, t) :: cases => p.isSpelled A && t.isSpelled A && Term.casesSpelled A cases

end

theorem Pattern.allSpelled_iff {A : Alphabet} {ps : List Pattern} :
    allSpelled A ps ↔ ∀ p ∈ ps, p.isSpelled A := by
  induction ps with
  | nil => simp [allSpelled]
  | cons p ps ih => rw [allSpelled, Bool.and_eq_true, ih, List.forall_mem_cons]

theorem Term.casesSpelled_iff {A : Alphabet} {cases : List (Pattern × Term)} :
    casesSpelled A cases ↔ ∀ c ∈ cases, c.1.isSpelled A ∧ c.2.isSpelled A := by
  induction cases with
  | nil => simp [casesSpelled]
  | cons c cases ih =>
    rw [casesSpelled, Bool.and_eq_true, Bool.and_eq_true, ih, List.forall_mem_cons]

/-! ### Tokens -/

inductive Token where
  | opening
  | closing
  | lambda
  | dot
  | fix
  | cond
  | yes
  | no
  | select
  | cases
  | bar
  | arrow
  | not
  | op (op : BinaryOp)
  | lit (literal : Literal)
  | var (name : String)
  | ctor (name : String)
deriving DecidableEq, Inhabited

/-- The words of the language. -/
def keywords : List (String × Token) :=
  [("rec", .fix), ("if", .cond), ("then", .yes), ("else", .no), ("match", .select),
    ("with", .cases), ("|", .bar), ("->", .arrow), ("not", .not),
    ("True", .lit (.bool true)), ("False", .lit (.bool false))] ++
  [BinaryOp.add, .sub, .mul, .div, .and, .or, .eq, .le].map fun op => (op.symbol, .op op)

/-- The value of a list of digits that is not empty. -/
def natural? (digits : List Char) : Option Nat :=
  if digits ≠ [] ∧ digits.all Char.isDigit then some (Nat.ofDigitChars 10 digits 0) else none

/-- The value of digits, possibly after a minus sign. -/
def integer? : List Char → Option Int
  | '-' :: digits => (natural? digits).map fun n : Nat => -(n : Int)
  | digits => (natural? digits).map Int.ofNat

/-- The tokens of a sign that ends a word. -/
def mark? : Char → Option (List Token)
  | ' ' => some []
  | '(' => some [.opening]
  | ')' => some [.closing]
  | '\x5c' => some [.lambda]
  | '.' => some [.dot]
  | _ => none

namespace Alphabet

variable (A : Alphabet)

/-- The token of a word; between two marks there may be none. -/
def ofWord : List Char → List Token
  | [] => []
  | c :: cs =>
    match integer? (c :: cs), keywords.lookup (String.ofList (c :: cs)) with
    | some n, _ => [.lit (.int (.ofInt n))]
    | none, some token => [token]
    | none, none =>
      [if A.isUpper c then .ctor (String.ofList (c :: cs)) else .var (String.ofList (c :: cs))]

/-- The tokens of characters that follow the beginning of a word. -/
def scan (word : List Char) : List Char → List Token
  | [] => A.ofWord word
  | c :: cs =>
    match mark? c with
    | some tokens => A.ofWord word ++ tokens ++ scan [] cs
    | none => scan (word ++ [c]) cs

def tokens (text : String) : List Token := A.scan [] text.toList

end Alphabet

/-! ### Words -/

theorem natural?_toDigits (n : Nat) : natural? (Nat.toDigits 10 n) = some n := by
  have hdigits : (Nat.toDigits 10 n).all Char.isDigit := by
    rw [List.all_eq_true]
    exact fun c hc => Nat.isDigit_of_mem_toDigits (by decide) (by decide) hc
  rw [natural?, if_pos ⟨Nat.toDigits_ne_nil, hdigits⟩, Nat.ofDigitChars_ten_toDigits]

theorem integer?_of_ne {c : Char} (h : c ≠ '-') (cs : List Char) :
    integer? (c :: cs) = (natural? (c :: cs)).map Int.ofNat := by
  rw [integer?]
  rintro digits ⟨⟩
  exact h rfl

/-- Digits are no sign, so a numeral is read as it was printed. -/
theorem integer?_repr (i : Int) : integer? i.repr.toList = some i := by
  cases i with
  | ofNat n =>
    have hrepr : (Int.ofNat n).repr.toList = Nat.toDigits 10 n := Nat.toList_repr
    rw [hrepr]
    obtain ⟨c, cs, hdigits⟩ := List.exists_cons_of_ne_nil (Nat.toDigits_ne_nil (n := n) (b := 10))
    have hc : c.isDigit :=
      Nat.isDigit_of_mem_toDigits (b := 10) (n := n) (by decide) (by decide) (by simp [hdigits])
    have hminus : c ≠ '-' := by
      rintro rfl
      cases hc
    rw [hdigits, integer?_of_ne hminus, ← hdigits, natural?_toDigits]
    rfl
  | negSucc n =>
    have hrepr : (Int.negSucc n).repr.toList = '-' :: Nat.toDigits 10 (n + 1) := by
      change ("-" ++ (n + 1).repr).toList = _
      rw [String.toList_append, Nat.toList_repr]
      rfl
    rw [hrepr, integer?, natural?_toDigits]
    rfl

theorem mark?_eq_none {c : Char} (h : c ∈ signs → c = '_' ∨ c = '\x27') : mark? c = none := by
  unfold mark?
  split <;> first | rfl | exact absurd (h (by decide)) (by decide)

/-- A numeral has a digit, and no character that ends it. -/
theorem unmarked_of_integer? {w : List Char} {n : Int} (h : integer? w = some n) :
    w ≠ [] ∧ ∀ c ∈ w, mark? c = none := by
  have hnatural : ∀ {digits : List Char} {f : Nat → Int}, (natural? digits).map f = some n →
      digits ≠ [] ∧ ∀ c ∈ digits, mark? c = none := by
    intro digits f h
    obtain ⟨_, h, -⟩ := Option.map_eq_some_iff.1 h
    rw [natural?] at h
    split at h
    · rename_i hdigits
      refine ⟨hdigits.1, fun c hc => mark?_eq_none fun hsign => ?_⟩
      have hdigit : c.isDigit := List.all_eq_true.1 hdigits.2 c hc
      have halphanum : c.isAlphanum := by rw [Ascii.isAlphanum_eq, hdigit, Bool.or_true]
      exact absurd hsign (Ascii.not_mem_signs (.inr (.inr halphanum)))
    · cases h
  unfold integer? at h
  split at h
  · exact ⟨List.cons_ne_nil _ _, List.forall_mem_cons.2 ⟨rfl, (hnatural h).2⟩⟩
  · exact hnatural h

namespace Alphabet

variable {A : Alphabet}

theorem scan_eq_scanWords (word cs : List Char) :
    A.scan word cs = scanWords mark? A.ofWord word cs := by
  induction cs generalizing word with
  | nil => rw [scan, scanWords]
  | cons c cs ih =>
    rw [scan, scanWords]
    cases mark? c with
    | none => exact ih (word ++ [c])
    | some tokens => exact congrArg (A.ofWord word ++ tokens ++ ·) (ih [])

theorem scan_of_unmarked {w : List Char} (h : ∀ c ∈ w, mark? c = none) (word : List Char) :
    A.scan word w = A.ofWord (word ++ w) := by
  rw [scan_eq_scanWords, scanWords_of_unmarked h]

theorem mark?_of_continues {c : Char} (h : A.continues c) : mark? c = none := by
  refine mark?_eq_none fun hsign => ?_
  simp only [continues, Bool.or_eq_true, decide_eq_true_eq, or_assoc] at h
  exact h.resolve_left fun h => A.not_sign (.inr (.inr h)) hsign

/-- A word that is no numeral and no keyword is a name, of the kind that its first letter
    tells. -/
theorem tokens_of_name {x : String} {c : Char} {cs : List Char} (hx : x.toList = c :: cs)
    (hc : c = '_' ∨ A.isLower c ∨ A.isUpper c) (hcs : cs.all A.continues)
    (hkeyword : x ∉ keywords.map Prod.fst) :
    A.tokens x = [if A.isUpper c then .ctor x else .var x] := by
  have hstart : ¬ c.isDigit ∧ c ≠ '-' ∧ mark? c = none := by
    rcases hc with rfl | hc
    · decide
    · have hsign : c ∉ signs := A.not_sign (or_assoc.1 (.inl hc))
      refine ⟨A.not_digit hc, ?_, mark?_eq_none fun h => absurd h hsign⟩
      rintro rfl
      exact hsign (by decide)
  obtain ⟨hdigit, hminus, hmark⟩ := hstart
  have hmarks : ∀ d ∈ x.toList, mark? d = none := by
    rw [hx, List.forall_mem_cons]
    exact ⟨hmark, fun d hd => mark?_of_continues (List.all_eq_true.1 hcs d hd)⟩
  have hinteger : integer? (c :: cs) = none := by
    rw [integer?_of_ne hminus, natural?, if_neg (by simp [hdigit])]
    rfl
  have hlookup : keywords.lookup x = none := by
    rw [List.lookup_eq_none_iff]
    rintro ⟨k, token⟩ hk
    rw [bne_iff_ne]
    rintro rfl
    exact hkeyword (List.mem_map_of_mem hk)
  have hword : String.ofList (c :: cs) = x := by rw [← hx, String.ofList_toList]
  rw [tokens, scan_of_unmarked hmarks, List.nil_append, hx, ofWord, hinteger, hword, hlookup]

theorem tokens_of_isVariable {x : String} (h : A.isVariable x) : A.tokens x = [.var x] := by
  rw [isVariable] at h
  split at h
  · cases h
  · rename_i c cs hx
    simp only [Bool.and_eq_true, Bool.or_eq_true, decide_eq_true_eq] at h
    obtain ⟨⟨hc, hcs⟩, hreserved⟩ := h
    have hupper : ¬ A.isUpper c := by
      rcases hc with hc | rfl
      · exact A.one_case hc
      · exact fun hc => A.not_sign (.inr (.inl hc)) (by decide)
    have hkeyword : x ∉ keywords.map Prod.fst := by
      intro hx'
      have hstart : ∀ k ∈ keywords.map Prod.fst, k ∈ reserved ∨
          k.toList.head?.any fun c => c.isUpper || c ∈ signs.filter (· ≠ '_') := by decide
      have hc' := (hstart x hx').resolve_left hreserved
      rw [hx, List.head?_cons, Option.any_some, Bool.or_eq_true, decide_eq_true_eq,
        List.mem_filter, decide_eq_true_eq] at hc'
      rcases hc' with hc' | ⟨hsign, hunderscore⟩
      · exact hupper (A.upper_of_ascii hc')
      · exact A.not_sign (.inl (hc.resolve_right hunderscore)) hsign
    rw [tokens_of_name hx (hc.symm.imp_right .inl) hcs hkeyword, if_neg hupper]

theorem tokens_of_isConstructor {name : String} (h : A.isConstructor name) :
    A.tokens name = [.ctor name] := by
  rw [isConstructor] at h
  split at h
  · cases h
  · rename_i c cs hx
    simp only [Bool.and_eq_true, decide_eq_true_eq] at h
    obtain ⟨⟨hc, hcs⟩, htruth⟩ := h
    have hkeyword : name ∉ keywords.map Prod.fst := by
      intro hx'
      have hstart : ∀ k ∈ keywords.map Prod.fst, k ∈ ["True", "False"] ∨
          k.toList.head?.any fun c => c.isLower || c ∈ signs := by decide
      have hc' := (hstart name hx').resolve_left htruth
      rw [hx, List.head?_cons, Option.any_some, Bool.or_eq_true, decide_eq_true_eq] at hc'
      rcases hc' with hc' | hsign
      · exact A.one_case (A.lower_of_ascii hc') hc
      · exact A.not_sign (.inr (.inl hc)) hsign
    rw [tokens_of_name hx (.inr (.inr hc)) hcs hkeyword, if_pos hc]

theorem tokens_literal (l : Literal) : A.tokens l.render = [.lit l] := by
  cases l with
  | bool b => cases b <;> rfl
  | int n =>
    have hinteger := integer?_repr n.toInt
    obtain ⟨hne, hmarks⟩ := unmarked_of_integer? hinteger
    obtain ⟨c, cs, hword⟩ := List.exists_cons_of_ne_nil hne
    rw [Literal.render, tokens, scan_of_unmarked hmarks, List.nil_append, hword, ofWord, ← hword,
      hinteger]
    dsimp only
    rw [Int64.ofInt_toInt]

/-! ### Texts side by side -/

/-- The text begins with a sign that ends a word, if it begins at all. -/
def beginsApart (text : String) : Bool := text.toList.head?.all fun c => (mark? c).isSome

/-- The text ends with a sign that ends a word. -/
def endsApart (text : String) : Bool := text.toList.getLast?.any fun c => (mark? c).isSome

theorem scan_mark {c : Char} {marks : List Token} (h : mark? c = some marks)
    (word first rest : List Char) :
    A.scan word (first ++ c :: rest) = A.scan word first ++ marks ++ A.scan [] rest := by
  simp only [scan_eq_scanWords, scanWords_mark h]

theorem tokens_append_of_beginsApart (a : String) {b : String} (h : beginsApart b) :
    A.tokens (a ++ b) = A.tokens a ++ A.tokens b := by
  rw [tokens, tokens, tokens, String.toList_append]
  rw [beginsApart] at h
  rcases hb : b.toList with _ | ⟨c, cs⟩
  · rw [List.append_nil, scan, ofWord, List.append_nil]
  · rw [hb, List.head?_cons, Option.all_some] at h
    obtain ⟨marks, hmark⟩ := Option.isSome_iff_exists.1 h
    have hrest := scan_mark (A := A) hmark [] [] cs
    rw [List.nil_append] at hrest
    rw [scan_mark hmark, hrest, scan, ofWord, List.nil_append, List.append_assoc]

theorem tokens_append_of_endsApart {a : String} (h : endsApart a) (b : String) :
    A.tokens (a ++ b) = A.tokens a ++ A.tokens b := by
  rw [tokens, tokens, tokens, String.toList_append]
  rw [endsApart] at h
  rcases List.eq_nil_or_concat a.toList with ha | ⟨cs, c, ha⟩
  · rw [ha] at h
    cases h
  · rw [ha, List.concat_eq_append, List.getLast?_concat, Option.any_some] at h
    obtain ⟨marks, hmark⟩ := Option.isSome_iff_exists.1 h
    rw [ha, List.concat_eq_append, List.append_assoc, List.singleton_append, scan_mark hmark,
      scan_mark hmark, scan, ofWord, List.append_nil]

theorem endsApart_append (a : String) {b : String} (h : endsApart b) : endsApart (a ++ b) := by
  obtain ⟨c, hlast, hc⟩ := (Option.any_eq_true _ _).1 h
  rw [endsApart, String.toList_append, List.getLast?_append, hlast]
  exact hc

theorem tokens_between {between : String} (hbegins : beginsApart between)
    (hends : endsApart between) (a b : String) :
    A.tokens (a ++ between ++ b) = A.tokens a ++ A.tokens between ++ A.tokens b := by
  rw [tokens_append_of_endsApart (endsApart_append a hends), tokens_append_of_beginsApart a hbegins]

/-! ### The forms of a term -/

theorem tokens_parentheses (text : String) :
    A.tokens ("(" ++ text ++ ")") = .opening :: (A.tokens text ++ [.closing]) := by
  rw [tokens_append_of_beginsApart _ (by decide), tokens_append_of_endsApart (by decide)]
  rfl

theorem tokens_space (a b : String) : A.tokens (a ++ " " ++ b) = A.tokens a ++ A.tokens b := by
  rw [tokens_between (by decide) (by decide)]
  change A.tokens a ++ [] ++ A.tokens b = _
  rw [List.append_nil]

theorem tokens_lambda (x body : String) :
    A.tokens ("\\" ++ x ++ ". " ++ body) = .lambda :: (A.tokens x ++ .dot :: A.tokens body) := by
  rw [tokens_between (by decide) (by decide), tokens_append_of_endsApart (by decide),
    List.append_assoc]
  rfl

theorem tokens_fix (x body : String) :
    A.tokens ("rec " ++ x ++ ". " ++ body) = .fix :: (A.tokens x ++ .dot :: A.tokens body) := by
  rw [tokens_between (by decide) (by decide), tokens_append_of_endsApart (by decide),
    List.append_assoc]
  rfl

theorem tokens_symbol (op : BinaryOp) : A.tokens op.symbol = [.op op] := by
  cases op <;> rfl

theorem tokens_binary (op : BinaryOp) (a b : String) :
    A.tokens (a ++ " " ++ op.symbol ++ " " ++ b) = A.tokens a ++ .op op :: A.tokens b := by
  rw [tokens_space, tokens_space, tokens_symbol, List.append_assoc, List.singleton_append]

theorem tokens_not (a : String) : A.tokens ("not " ++ a) = .not :: A.tokens a :=
  tokens_append_of_endsApart (by decide) a

theorem tokens_cond (a b e : String) :
    A.tokens ("if " ++ a ++ " then " ++ b ++ " else " ++ e) =
      .cond :: (A.tokens a ++ .yes :: (A.tokens b ++ .no :: A.tokens e)) := by
  rw [tokens_between (by decide) (by decide), tokens_between (by decide) (by decide),
    tokens_append_of_endsApart (by decide)]
  simp only [List.append_assoc]
  rfl

theorem tokens_select (a : String) {cases : String} (h : beginsApart cases) :
    A.tokens ("match " ++ a ++ " with" ++ cases) =
      .select :: (A.tokens a ++ .cases :: A.tokens cases) := by
  rw [tokens_append_of_beginsApart _ h, tokens_append_of_beginsApart _ (by decide),
    tokens_append_of_endsApart (by decide), List.append_assoc]
  rfl

theorem tokens_case (p body : String) {cases : String} (h : beginsApart cases) :
    A.tokens (" | " ++ p ++ " -> " ++ body ++ cases) =
      .bar :: (A.tokens p ++ .arrow :: (A.tokens body ++ A.tokens cases)) := by
  rw [tokens_append_of_beginsApart _ h, tokens_between (by decide) (by decide),
    tokens_append_of_endsApart (by decide)]
  simp only [List.append_assoc]
  rfl

theorem beginsApart_renderCases (cases : List (Pattern × Term)) :
    beginsApart (Term.renderCases cases) := by
  cases cases with
  | nil => rfl
  | cons c cases =>
    rw [Term.renderCases, beginsApart]
    simp only [String.toList_append, List.append_assoc]
    rfl

end Alphabet

end CoreCalculus
