/-
  CoreCalculus/Proofs/TypeReading.lean
  ====================================
  **Printed types are unambiguous.**

  A space ends a word of a printed type, and so does a parenthesis; a word is an arrow, a
  star, a variable or a name.  A reader goes through the words once.  It keeps what is open
  around its place (`Frame`) and what was read there so far (`Phrase`): an atom after a type
  is an argument of it, an atom after a star is the right factor of a product, which then may
  get arguments itself.

  There is one lemma for each form of a type, which says that the reader comes back with the
  type of which the text was printed, flat and with variables known by name (`Readable`).  The
  names of the variables of a normal form tell their places, so its text tells it up to
  flattening.
-/
import Mathlib.Logic.Function.Basic
import CoreCalculus.Proofs.Words
import CoreCalculus.Proofs.Flattening

namespace CoreCalculus

/-- What is printed after the apostrophe. -/
def TypeVar.name (v : TypeVar) : String := v.hint.getD ("t" ++ Nat.repr v.id)

theorem TypeVar.render_eq (v : TypeVar) : v.render = "'" ++ v.name := by
  obtain ⟨i, hint⟩ := v
  cases hint with
  | none => simp only [render, name, Option.getD_none, ← String.append_assoc]; rfl
  | some x => rfl

namespace Ty

/-! ### Tokens -/

inductive Token where
  | opening
  | closing
  | arrow
  | star
  | var (name : String)
  | name (name : String)
deriving DecidableEq, Inhabited

/-- The tokens of a sign that ends a word. -/
def mark? : Char → Option (List Token)
  | ' ' => some []
  | '(' => some [.opening]
  | ')' => some [.closing]
  | _ => none

/-- The token of a word; between two marks there may be none. -/
def ofWord : List Char → List Token
  | [] => []
  | '\x27' :: name => [.var (String.ofList name)]
  | ['*'] => [.star]
  | ['-', '>'] => [.arrow]
  | word => [.name (String.ofList word)]

def tokens (text : String) : List Token := scanWords mark? ofWord [] text.toList

/-- A word without marks that is no variable, no star and no arrow. -/
def isTypeName (name : String) : Bool :=
  name ≠ "" && name.toList.all (fun c => c ∉ [' ', '(', ')']) && name.toList.head? ≠ some '\x27' &&
    name ≠ "*" && name ≠ "->"

mutual

/-- All names of constants and data types are names. -/
def isSpelled : Ty → Bool
  | .var _ => true
  | .const name => isTypeName name
  | .func a b => a.isSpelled && b.isSpelled
  | .prod a b => a.isSpelled && b.isSpelled
  | .app a b => a.isSpelled && b.isSpelled
  | .adt name ts => isTypeName name && allSpelled ts

def allSpelled : List Ty → Bool
  | [] => true
  | t :: ts => t.isSpelled && allSpelled ts

end

theorem allSpelled_iff {ts : List Ty} : allSpelled ts ↔ ∀ t ∈ ts, t.isSpelled := by
  induction ts with
  | nil => simp [allSpelled]
  | cons t ts ih => rw [allSpelled, Bool.and_eq_true, ih, List.forall_mem_cons]

theorem mark?_eq_none_iff {c : Char} : mark? c = none ↔ c ∉ [' ', '(', ')'] := by
  unfold mark?
  split <;> simp_all

theorem tokens_of_isTypeName {name : String} (h : isTypeName name) :
    tokens name = [.name name] := by
  simp only [isTypeName, Bool.and_eq_true, decide_eq_true_eq, List.all_eq_true] at h
  obtain ⟨⟨⟨⟨hempty, hmarks⟩, hapostrophe⟩, hstar⟩, harrow⟩ := h
  rw [tokens, scanWords_of_unmarked fun c hc => mark?_eq_none_iff.2 (hmarks c hc), List.nil_append]
  unfold ofWord
  split
  · rename_i hword
    exact absurd (String.toList_eq_nil_iff.1 hword) hempty
  · rename_i hword
    rw [hword] at hapostrophe
    exact absurd rfl hapostrophe
  · rename_i hword
    exact absurd (String.toList_inj.1 hword) hstar
  · rename_i hword
    exact absurd (String.toList_inj.1 hword) harrow
  · rw [String.ofList_toList]

theorem tokens_render {v : TypeVar} (h : ∀ c ∈ v.name.toList, mark? c = none) :
    tokens v.render = [.var v.name] := by
  have hrender : v.render.toList = '\x27' :: v.name.toList := by
    rw [v.render_eq, String.toList_append]
    rfl
  have hmarks : ∀ c ∈ v.render.toList, mark? c = none := by
    rw [hrender, List.forall_mem_cons]
    exact ⟨rfl, h⟩
  rw [tokens, scanWords_of_unmarked hmarks, hrender, List.nil_append, ofWord, String.ofList_toList]

theorem tokens_space (a b : String) : tokens (a ++ " " ++ b) = tokens a ++ tokens b := by
  have htext : (a ++ " " ++ b).toList = a.toList ++ ' ' :: b.toList := by
    simp only [String.toList_append, List.append_assoc]
    rfl
  rw [tokens, htext, scanWords_mark rfl, List.append_nil, tokens, tokens]

theorem tokens_infix (a sign b : String) :
    tokens (a ++ (" " ++ sign ++ " ") ++ b) = tokens a ++ (tokens sign ++ tokens b) := by
  have htext : a ++ (" " ++ sign ++ " ") ++ b = a ++ " " ++ (sign ++ " " ++ b) := by
    simp only [String.append_assoc]
  rw [htext, tokens_space, tokens_space]

theorem tokens_arrow (a b : String) :
    tokens (a ++ " -> " ++ b) = tokens a ++ .arrow :: tokens b := tokens_infix a "->" b

theorem tokens_star (a b : String) :
    tokens (a ++ " * " ++ b) = tokens a ++ .star :: tokens b := tokens_infix a "*" b

theorem tokens_parentheses (text : String) :
    tokens ("(" ++ text ++ ")") = .opening :: (tokens text ++ [.closing]) := by
  have htext : ("(" ++ text ++ ")").toList = [] ++ '(' :: (text.toList ++ ')' :: []) := by
    simp only [String.toList_append, List.append_assoc]
    rfl
  rw [tokens, htext, scanWords_mark rfl, scanWords_mark rfl, tokens, scanWords, ofWord,
    List.nil_append, List.append_nil, List.singleton_append]

theorem tokens_renderArgs (head : String) (ts : List Ty) :
    tokens (head ++ renderArgs ts) = tokens head ++ ts.flatMap fun t => tokens (t.renderAt 2) := by
  induction ts generalizing head with
  | nil => rw [renderArgs, String.append_empty, List.flatMap_nil, List.append_nil]
  | cons t ts ih =>
    rw [renderArgs, ← String.append_assoc, ← String.append_assoc, ih, tokens_space,
      List.flatMap_cons, List.append_assoc]

/-! ### The reader -/

/-- What was read since the innermost opening or arrow. -/
inductive Phrase where
  | empty
  | type (t : Ty)
  | product (left : Ty)

/-- An atom follows. -/
def Phrase.feed : Phrase → Ty → Phrase
  | .empty, a => .type a
  | .type t, a => .type (t.withArg a)
  | .product l, a => .type (.prod l a)

/-- What is open around the phrase. -/
inductive Frame where
  | paren (before : Phrase)
  | arrow (arg : Ty)

/-- A type ends, and with it all results that it is in. -/
def closeArrows : List Frame → Ty → List Frame × Ty
  | .arrow a :: frames, t => closeArrows frames (.func a t)
  | frames, t => (frames, t)

/-- The type of the tokens, after those that left the frames open.  Variables have only
    names. -/
def read : List Frame → Phrase → List Token → Option Ty
  | frames, .type t, [] =>
    match closeArrows frames t with
    | ([], t) => some t
    | _ => none
  | frames, phrase, .var x :: rest => read frames (phrase.feed (.var ⟨0, some x⟩)) rest
  | frames, phrase, .name x :: rest => read frames (phrase.feed (.const x)) rest
  | frames, phrase, .opening :: rest => read (.paren phrase :: frames) .empty rest
  | frames, .type t, .closing :: rest =>
    match closeArrows frames t with
    | (.paren before :: frames, t) => read frames (before.feed t) rest
    | _ => none
  | frames, .type t, .arrow :: rest => read (.arrow t :: frames) .empty rest
  | frames, .type t, .star :: rest => read frames (.product t) rest
  | _, _, _ => none

/-- The type of a text. -/
def read? (text : String) : Option Ty := read [] .empty (tokens text)

/-- The type with its variables known by name. -/
def named (t : Ty) : Ty := t.subst fun v => .var ⟨0, some v.name⟩

/-! ### Reading one form after another -/

/-- A type is over. -/
def Ends (rest : List Token) : Prop := rest.head?.all (· = .closing)

/-- What may surround a text of the level: anything at the tightest, before it nothing at a
    lower one, and after it nothing at the lowest. -/
structure Admits (level : Nat) (phrase : Phrase) (rest : List Token) : Prop where
  before : level < 2 → phrase = .empty
  after : level < 1 → Ends rest

/-- At a place of the level, the text is read as the type. -/
def Reads (level : Nat) (text : String) (r : Ty) : Prop :=
  ∀ (frames : List Frame) (phrase : Phrase) (rest : List Token), Admits level phrase rest →
    read frames phrase (tokens text ++ rest) = read frames (phrase.feed r) rest

theorem Admits.mono {level level' : Nat} (h : level ≤ level') {phrase : Phrase} {rest : List Token}
    (hadmits : Admits level phrase rest) : Admits level' phrase rest where
  before hlt := hadmits.before (by omega)
  after hlt := hadmits.after (by omega)

theorem admits_empty (rest : List Token) : Admits 1 .empty rest := ⟨fun _ => rfl, by simp⟩

theorem admits_atom (phrase : Phrase) (rest : List Token) : Admits 2 phrase rest :=
  ⟨by simp, by simp⟩

/-- What a type ends, it ends with the arrows around it. -/
theorem read_arrow {rest : List Token} (h : Ends rest) (frames : List Frame) (a b : Ty) :
    read (.arrow a :: frames) (.type b) rest = read frames (.type (.func a b)) rest := by
  cases rest with
  | nil => simp only [read, closeArrows]
  | cons token rest =>
    rw [Ends, List.head?_cons, Option.all_some, decide_eq_true_eq] at h
    subst h
    simp only [read, closeArrows]

theorem Reads.parentheses {level : Nat} {text : String} {r : Ty} (h : Reads level text r)
    (level' : Nat) : Reads level' ("(" ++ text ++ ")") r := by
  intro frames phrase rest _
  have hadmits : Admits level .empty (.closing :: rest) := ⟨fun _ => rfl, fun _ => rfl⟩
  rw [tokens_parentheses, List.cons_append, List.append_assoc, List.singleton_append, read,
    h _ _ _ hadmits, Phrase.feed, read, closeArrows]
  simp

/-- A text of one level, with parentheses at the tighter ones. -/
theorem Reads.parenthesize {level : Nat} {text : String} {r : Ty} (h : Reads level text r)
    (level' : Nat) : Reads level' (parenthesize (level < level') text) r := by
  rw [CoreCalculus.parenthesize]
  split
  · exact h.parentheses level'
  · rename_i hlevel
    rw [decide_eq_true_eq, Nat.not_lt] at hlevel
    intro frames phrase rest hadmits
    exact h frames phrase rest (hadmits.mono hlevel)

/-- At each level the text of `t` is read as `r`. -/
def Readable (t r : Ty) : Prop := ∀ level, Reads level (t.renderAt level) r

namespace Readable

variable {a b r s : Ty}

theorem var {v : TypeVar} (h : ∀ c ∈ v.name.toList, mark? c = none) :
    Readable (.var v) (.var ⟨0, some v.name⟩) := by
  intro level frames phrase rest _
  rw [renderAt, tokens_render h, List.singleton_append, read]

theorem const {name : String} (h : isTypeName name) : Readable (.const name) (.const name) := by
  intro level frames phrase rest _
  rw [renderAt, tokens_of_isTypeName h, List.singleton_append, read]

theorem func (ha : Readable a r) (hb : Readable b s) : Readable (.func a b) (.func r s) := by
  intro level
  rw [renderAt]
  refine Reads.parenthesize ?_ level
  intro frames phrase rest hadmits
  obtain rfl : phrase = .empty := hadmits.before (by decide)
  have hends : Ends rest := hadmits.after (by decide)
  let right := tokens (b.renderAt 0) ++ rest
  calc read frames .empty (tokens (a.renderAt 1 ++ " -> " ++ b.renderAt 0) ++ rest)
    _ = read frames .empty (tokens (a.renderAt 1) ++ .arrow :: right) := by
        rw [tokens_arrow, List.append_assoc, List.cons_append]
    _ = read frames (.type r) (.arrow :: right) := ha 1 _ _ _ (admits_empty _)
    _ = read (.arrow r :: frames) .empty right := by rw [read]
    _ = read (.arrow r :: frames) (.type s) rest := hb 0 _ _ _ ⟨fun _ => rfl, fun _ => hends⟩
    _ = read frames (.type (.func r s)) rest := read_arrow hends frames r s

theorem prod (ha : Readable a r) (hb : Readable b s) : Readable (.prod a b) (.prod r s) := by
  intro level
  rw [renderAt]
  refine Reads.parenthesize ?_ level
  intro frames phrase rest hadmits
  obtain rfl : phrase = .empty := hadmits.before (by decide)
  let right := tokens (b.renderAt 2) ++ rest
  calc read frames .empty (tokens (a.renderAt 2 ++ " * " ++ b.renderAt 2) ++ rest)
    _ = read frames .empty (tokens (a.renderAt 2) ++ .star :: right) := by
        rw [tokens_star, List.append_assoc, List.cons_append]
    _ = read frames (.type r) (.star :: right) := ha 2 _ _ _ (admits_atom _ _)
    _ = read frames (.product r) right := by rw [read]
    _ = read frames (.type (.prod r s)) rest := hb 2 _ _ _ (admits_atom _ _)

theorem app (ha : Readable a r) (hb : Readable b s) : Readable (.app a b) (r.withArg s) := by
  intro level
  rw [renderAt]
  refine Reads.parenthesize ?_ level
  intro frames phrase rest hadmits
  obtain rfl : phrase = .empty := hadmits.before (by decide)
  let right := tokens (b.renderAt 2) ++ rest
  calc read frames .empty (tokens (a.renderAt 1 ++ " " ++ b.renderAt 2) ++ rest)
    _ = read frames .empty (tokens (a.renderAt 1) ++ right) := by
        rw [tokens_space, List.append_assoc]
    -- the target is complete as soon as an atom follows, also when it is a product
    _ = read frames (.type r) right := ha 1 _ _ _ (admits_empty _)
    _ = read frames (.type (r.withArg s)) rest := hb 2 _ _ _ (admits_atom _ _)

/-- Arguments, one after another. -/
theorem read_args {ts : List Ty} {f : Ty → Ty} (h : ∀ t ∈ ts, Readable t (f t))
    (frames : List Frame) (r : Ty) (rest : List Token) :
    read frames (.type r) (ts.flatMap (fun t => tokens (t.renderAt 2)) ++ rest) =
      read frames (.type ((ts.map f).foldl withArg r)) rest := by
  induction ts generalizing r with
  | nil => rfl
  | cons t ts ih =>
    rw [List.forall_mem_cons] at h
    rw [List.flatMap_cons, List.append_assoc, h.1 2 _ _ _ (admits_atom _ _), Phrase.feed, ih h.2,
      List.map_cons, List.foldl_cons]

theorem adt {name : String} {ts : List Ty} {f : Ty → Ty} (hname : isTypeName name)
    (h : ∀ t ∈ ts, Readable t (f t)) :
    Readable (.adt name ts) ((ts.map f).foldl withArg (.const name)) := by
  intro level
  cases ts with
  | nil => exact const hname level
  | cons t ts =>
    rw [renderAt]
    refine Reads.parenthesize ?_ level
    intro frames phrase rest hadmits
    obtain rfl : phrase = .empty := hadmits.before (by decide)
    have htokens : tokens (name ++ " " ++ t.renderAt 2 ++ renderArgs ts) =
        .name name :: (t :: ts).flatMap fun t => tokens (t.renderAt 2) := by
      rw [tokens_renderArgs, tokens_space, tokens_of_isTypeName hname, List.flatMap_cons,
        List.append_assoc, List.singleton_append]
    rw [htokens, List.cons_append, read]
    exact read_args h frames (.const name) rest

end Readable

/-! ### Every type -/

theorem readable {t : Ty} (h : t.isSpelled)
    (hvars : ∀ v ∈ t.vars, ∀ c ∈ v.name.toList, mark? c = none) : Readable t t.named.flatten := by
  induction t using induct with
  | var v => exact .var (hvars v List.mem_cons_self)
  | const name => exact .const h
  | func a b iha ihb =>
    rw [isSpelled, Bool.and_eq_true] at h
    rw [vars, List.forall_mem_append] at hvars
    exact .func (iha h.1 hvars.1) (ihb h.2 hvars.2)
  | prod a b iha ihb =>
    rw [isSpelled, Bool.and_eq_true] at h
    rw [vars, List.forall_mem_append] at hvars
    exact .prod (iha h.1 hvars.1) (ihb h.2 hvars.2)
  | app a b iha ihb =>
    rw [isSpelled, Bool.and_eq_true] at h
    rw [vars, List.forall_mem_append] at hvars
    exact .app (iha h.1 hvars.1) (ihb h.2 hvars.2)
  | adt name ts ih =>
    rw [isSpelled, Bool.and_eq_true, allSpelled_iff] at h
    rw [vars, varsAll_eq_flatMap] at hvars
    have hargs : ∀ t ∈ ts, Readable t t.named.flatten := by
      intro t ht
      exact ih t ht (h.2 t ht) fun v hv => hvars v (List.mem_flatMap.2 ⟨t, ht, hv⟩)
    have hnamed : (Ty.adt name ts).named.flatten =
        (ts.map fun t => t.named.flatten).foldl withArg (.const name) := by
      rw [named, subst, substAll_eq_map, flatten_adt, List.map_map]
      rfl
    rw [hnamed]
    exact .adt h.1 hargs

/-- **Reading back.**  The text of a type is read as the type, flat and with its variables known
    by name. -/
theorem read?_render {t : Ty} (h : t.isSpelled)
    (hvars : ∀ v ∈ t.vars, ∀ c ∈ v.name.toList, mark? c = none) :
    read? t.render = some t.named.flatten := by
  have hread := readable h hvars 0 [] .empty [] ⟨fun _ => rfl, fun _ => rfl⟩
  rw [List.append_nil] at hread
  rw [read?, render, hread, Phrase.feed, read, closeArrows]
  simp

/-- The product is the type that is applied, and a name gathers its arguments. -/
example : read? "'a * (list Int -> Int) Int -> pair 'a (list 'b)" =
    some (.func (.app (.prod (.var ⟨0, some "a"⟩) (.func (.adt "list" [int]) int)) int)
      (.adt "pair" [.var ⟨0, some "a"⟩, .adt "list" [.var ⟨0, some "b"⟩]])) := by decide

/-! ### Normal forms -/

theorem isSpelled_subst_var (f : TypeVar → TypeVar) (t : Ty) :
    (t.subst fun v => .var (f v)).isSpelled = t.isSpelled := by
  induction t using induct with
  | var v => rfl
  | const name => rfl
  | func a b iha ihb | prod a b iha ihb | app a b iha ihb => simp only [subst, isSpelled, iha, ihb]
  | adt name ts ih =>
    have hall : allSpelled (ts.map (subst fun v => .var (f v))) = allSpelled ts := by
      rw [Bool.eq_iff_iff, allSpelled_iff, allSpelled_iff, List.forall_mem_map]
      exact forall₂_congr fun t ht => by rw [ih t ht]
    rw [subst, substAll_eq_map, isSpelled, isSpelled, hall]

theorem isSpelled_normalize (t : Ty) : t.normalize.isSpelled = t.isSpelled :=
  isSpelled_subst_var _ t

/-- A letter and digits. -/
theorem unmarked_of_mem_letterName {i : Nat} {c : Char} (h : c ∈ (letterName i).toList) :
    mark? c = none := by
  have hletters : ∀ k : Fin 26, mark? (Char.ofNat ('a'.toNat + k)) = none := by decide
  rw [toList_letterName, List.mem_cons] at h
  rcases h with rfl | h
  · exact hletters ⟨i % 26, Nat.mod_lt i (by decide)⟩
  · split at h
    · cases h
    · rw [Nat.toList_repr] at h
      have hdigit : c.isDigit := Nat.isDigit_of_mem_toDigits (by decide) (by decide) h
      rw [mark?_eq_none_iff]
      intro hmark
      have hmarks : [' ', '(', ')'].all fun d => !d.isDigit := by decide
      have hc := List.all_eq_true.1 hmarks c hmark
      rw [hdigit] at hc
      cases hc

theorem unmarked_of_normalize {t : Ty} : ∀ v ∈ t.normalize.vars, ∀ c ∈ v.name.toList,
    mark? c = none := by
  intro v hv c hc
  rw [normalize_eq, assign, vars_subst_var, List.mem_map] at hv
  obtain ⟨w, -, rfl⟩ := hv
  exact unmarked_of_mem_letterName hc

/-- The ids of variables with the names of normal forms. -/
noncomputable def unnamed (t : Ty) : Ty :=
  t.subst fun v => .var ⟨Function.invFun letterName v.name, none⟩

theorem unnamed_named_normalize (t : Ty) : t.normalize.named.unnamed = t.normalize.erase := by
  rw [normalize_eq, named, unnamed, erase, assign, subst_subst, subst_subst, subst_subst]
  refine subst_congr fun v _ => ?_
  have hinv : Function.invFun letterName (letterName (t.place v.id)) = t.place v.id :=
    Function.leftInverse_invFun letterName_injective _
  exact congrArg (fun i => Ty.var ⟨i, none⟩) hinv

/-- **Unambiguity.**  Normal forms have the same text exactly when a one-to-one renaming of
    variables and flattening make the types equal. -/
theorem render_normalize_eq_iff {s t : Ty} (hs : s.isSpelled) (ht : t.isSpelled) :
    s.normalize.render = t.normalize.render ↔
      ∃ ρ : Nat → Nat, ρ.Injective ∧ (s.rename ρ).flatten.alike t.flatten = true := by
  constructor
  · intro h
    -- the text tells the letters, and these the places
    have hnamed : s.normalize.named.flatten = t.normalize.named.flatten := by
      have hreads := read?_render ((isSpelled_normalize s).trans hs) unmarked_of_normalize
      have hreadt := read?_render ((isSpelled_normalize t).trans ht) unmarked_of_normalize
      rw [h, hreadt] at hreads
      exact (Option.some.inj hreads).symm
    have herase : s.flatten.normalize.alike t.flatten.normalize = true := by
      have hback : ∀ u : Ty, u.flatten.normalize.erase = u.normalize.named.flatten.unnamed := by
        intro u
        rw [normalize_flatten, erase_flatten, ← unnamed_named_normalize]
        exact flatten_subst_var _ _
      rw [alike_iff, hback, hback, hnamed]
    refine ⟨matching s.flatten t.flatten, matching_injective herase, ?_⟩
    rw [← rename_flatten]
    exact rename_matching herase
  · rintro ⟨ρ, hρ, h⟩
    rw [← rename_flatten] at h
    have hnormal : s.flatten.normalize = t.flatten.normalize :=
      normalize_eq_of_alike (normalize_alike_of_rename hρ h)
    rw [normalize_flatten, normalize_flatten] at hnormal
    calc s.normalize.render
      _ = s.normalize.flatten.render := (renderAt_flatten 0 _).symm
      _ = t.normalize.flatten.render := by rw [hnormal]
      _ = t.normalize.render := renderAt_flatten 0 _

/-- Applications and data types that are printed alike, and a product that is applied or has an
    application as a factor. -/
theorem render_normalize_eq_iff_applications :
    let a (i : Nat) : Ty := .var ⟨i, none⟩
    let s : Ty := .func (.prod (.app (.app (.const "map") (a 7)) (a 3)) (.adt "unit" []))
      (.app (.func (a 3) (a 7)) (.adt "list" [int]))
    let t : Ty := .func (.prod (.adt "map" [a 0, a 1]) (.const "unit"))
      (.app (.func (a 1) (a 0)) (.app (.const "list") int))
    let u : Ty := .app (.prod (a 0) (a 1)) (a 2)
    let w : Ty := .prod (a 0) (.app (a 1) (a 2))
    let renamed (s t : Ty) : Prop :=
      ∃ ρ : Nat → Nat, ρ.Injective ∧ (s.rename ρ).flatten.alike t.flatten = true
    s.normalize.render = "(map 'a 'b) * unit -> ('b -> 'a) (list Int)" ∧ renamed s t ∧
      u.normalize.render = "'a * 'b 'c" ∧ w.normalize.render = "'a * ('b 'c)" ∧ ¬ renamed u w := by
  intro a s t u w renamed
  have htext : s.normalize.render = "(map 'a 'b) * unit -> ('b -> 'a) (list Int)" := by decide
  have hsame : s.normalize.render = t.normalize.render := by decide
  have hdiffer : u.normalize.render ≠ w.normalize.render := by decide
  refine ⟨htext, ?_, by decide, by decide, ?_⟩
  · exact (render_normalize_eq_iff (by decide) (by decide)).1 hsame
  · intro hrenamed
    exact hdiffer ((render_normalize_eq_iff (by decide) (by decide)).2 hrenamed)

end Ty

end CoreCalculus
