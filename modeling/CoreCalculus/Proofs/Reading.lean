/-
  CoreCalculus/Proofs/Reading.lean
  ================================
  **Printed terms are read back.**

  A reader goes through the tokens of a text once, with a stack of what is open around the
  place it is at (`Frame`).  Each frame says how tight a term has to be to end up in it;
  before a token is taken, all frames are filled that are tighter than the level of the
  token.  So an operator to the left is complete when one as loose or looser follows, and
  what extends to the right ends only where something around it does.

  Reading the text of a term, at the level it was printed for, leaves the reader with the
  term, whatever is open around it and whatever follows, as long as the levels on both
  sides are no tighter (`Reads`).  There is one lemma for each form of a term; a pattern
  is read as the term with the same text.

  So a text is the text of one term at most.
-/
import CoreCalculus.Proofs.Tokens

namespace CoreCalculus

/-! ### Patterns as terms -/

mutual

/-- The term with the text of the pattern. -/
def Pattern.asTerm : Pattern → Term
  | .var x => .var x
  | .lit l => .lit l
  | .ctor name subs => (Term.ctor name).apply (Pattern.asTerms subs)

def Pattern.asTerms : List Pattern → List Term
  | [] => []
  | p :: ps => p.asTerm :: Pattern.asTerms ps

end

/-- The pattern with the text of the term, if there is one. -/
def Term.toPattern? : Term → Option Pattern
  | .var x => some (.var x)
  | .lit l => some (.lit l)
  | .ctor name => some (.ctor name [])
  | .app f a =>
    match f.toPattern?, a.toPattern? with
    | some (.ctor name subs), some sub => some (.ctor name (subs ++ [sub]))
    | _, _ => none
  | _ => none

namespace Pattern

theorem asTerms_eq_map (ps : List Pattern) : asTerms ps = ps.map asTerm := by
  induction ps with
  | nil => rfl
  | cons p ps ih => rw [asTerms, ih, List.map_cons]

theorem toPattern?_apply_asTerms {ps : List Pattern}
    (h : ∀ p ∈ ps, p.asTerm.toPattern? = some p) {head : Term} {name : String}
    {subs : List Pattern} (hhead : head.toPattern? = some (.ctor name subs)) :
    (head.apply (asTerms ps)).toPattern? = some (.ctor name (subs ++ ps)) := by
  induction ps generalizing head subs with
  | nil => rw [List.append_nil]; exact hhead
  | cons p ps ih =>
    rw [List.forall_mem_cons] at h
    have happ : (head.app p.asTerm).toPattern? = some (.ctor name (subs ++ [p])) := by
      rw [Term.toPattern?, hhead, h.1]
    rw [List.append_cons]
    exact ih h.2 happ

theorem toPattern?_asTerm (p : Pattern) : p.asTerm.toPattern? = some p := by
  induction p using induct with
  | var x => rfl
  | lit l => rfl
  | ctor name subs ih =>
    have hhead : (Term.ctor name).toPattern? = some (.ctor name []) := rfl
    exact toPattern?_apply_asTerms ih hhead

theorem renderAt_apply_asTerms {ps : List Pattern}
    (h : ∀ p ∈ ps, p.asTerm.renderAt atomLevel = p.renderAt true) (level : Nat) (f a : Term) :
    ((f.app a).apply (asTerms ps)).renderAt level = parenthesize (appLevel < level)
      (f.renderAt appLevel ++ " " ++ a.renderAt atomLevel ++ renderArgs ps) := by
  induction ps generalizing f a with
  | nil => rw [renderArgs, String.append_empty]; rfl
  | cons p ps ih =>
    rw [List.forall_mem_cons] at h
    have hfunc : (f.app a).renderAt appLevel =
        f.renderAt appLevel ++ " " ++ a.renderAt atomLevel := rfl
    have hcons : (f.app a).apply (asTerms (p :: ps)) =
        ((f.app a).app p.asTerm).apply (asTerms ps) := rfl
    rw [hcons, ih h.2, hfunc, h.1, renderArgs]
    simp only [String.append_assoc]

/-- The printer has one text for both. -/
theorem renderAt_asTerm (p : Pattern) (nested : Bool) :
    p.asTerm.renderAt (if nested then atomLevel else 0) = p.renderAt nested := by
  induction p using induct generalizing nested with
  | var x => rfl
  | lit l => rfl
  | ctor name subs ih =>
    have hsubs : ∀ p ∈ subs, p.asTerm.renderAt atomLevel = p.renderAt true := fun p hp =>
      ih p hp true
    cases subs with
    | nil => rfl
    | cons p ps =>
      rw [List.forall_mem_cons] at hsubs
      have hlevel : decide (appLevel < if nested then atomLevel else 0) = nested := by
        cases nested <;> rfl
      have hcons : (Term.ctor name).apply (asTerms (p :: ps)) =
          ((Term.ctor name).app p.asTerm).apply (asTerms ps) := rfl
      rw [asTerm, hcons, renderAt_apply_asTerms hsubs.2, hlevel, hsubs.1, renderAt]
      rfl

end Pattern

/-! ### The reader -/

/-- What is open around the place in the text, with what was read of it. -/
inductive Frame where
  | paren
  | app (func : Term)
  | right (op : BinaryOp) (left : Term)
  | not
  | lambda
  | abs (name : String)
  | recursion
  | fix (name : String)
  | test
  | yes (test : Term)
  | no (test yes : Term)
  | subject
  | matched
  | pattern (subject : Term) (cases : List (Pattern × Term))
  | body (subject : Term) (cases : List (Pattern × Term)) (pattern : Pattern)

namespace Frame

/-- Tokens of lower level end the frame; one of level 0 waits for its own token. -/
def level : Frame → Nat
  | .app _ => atomLevel
  | .not => appLevel
  | .right op _ => op.level + 1
  | .abs _ | .fix _ | .no _ _ | .matched | .body _ _ _ => 1
  | _ => 0

/-- The term that is complete with the one in the frame. -/
def fill : Frame → Term → Term
  | .app f, a => .app f a
  | .not, a => .not a
  | .right op a, b => .binary op a b
  | .abs x, t => .abs x t
  | .fix x, t => .fix x t
  | .no a b, e => .cond a b e
  | .body a cases p, t => .select a (cases ++ [(p, t)])
  | _, t => t

/-- The subject and the cases of a match whose last case may have ended. -/
def cases? : Frame → Term → Option (Term × List (Pattern × Term))
  | .matched, .select a cases => some (a, cases)
  | .body a cases p, t => some (a, cases ++ [(p, t)])
  | _, _ => none

theorem of_cases? {frame : Frame} {a t : Term} {cases : List (Pattern × Term)}
    (h : frame.cases? t = some (a, cases)) : frame.level = 1 ∧ frame.fill t = .select a cases := by
  unfold cases? at h
  split at h <;> cases h <;> exact ⟨rfl, rfl⟩

end Frame

/-- Fill the frames that a token of the level ends. -/
def closeFrames (level : Nat) : List Frame → Term → List Frame × Term
  | [], t => ([], t)
  | frame :: frames, t =>
    if level < frame.level then closeFrames level frames (frame.fill t) else (frame :: frames, t)

namespace Token

/-- A term of the tightest level begins. -/
def isAtomic : Token → Bool
  | .opening | .lit _ | .var _ | .ctor _ => true
  | _ => false

/-- The level of what the token continues, 0 if it only ends terms. -/
def level : Token → Nat
  | .op o => o.level
  | .bar => 1
  | token => if token.isAtomic then appLevel else 0

/-- Where a term begins. -/
def begin? (frames : List Frame) : Token → Option (List Frame × Option Term)
  | .var x => some (frames, some (.var x))
  | .ctor name => some (frames, some (.ctor name))
  | .lit l => some (frames, some (.lit l))
  | .opening => some (.paren :: frames, none)
  | .lambda => some (.lambda :: frames, none)
  | .fix => some (.recursion :: frames, none)
  | .cond => some (.test :: frames, none)
  | .select => some (.subject :: frames, none)
  | .not => some (.not :: frames, none)
  | _ => none

/-- After a term. -/
def proceed? : Token → List Frame → Term → Option (List Frame × Option Term)
  | .op o, frames, t => some (.right o t :: frames, none)
  | .closing, .paren :: frames, t => some (frames, some t)
  | .dot, .lambda :: frames, .var x => some (.abs x :: frames, none)
  | .dot, .recursion :: frames, .var x => some (.fix x :: frames, none)
  | .yes, .test :: frames, t => some (.yes t :: frames, none)
  | .no, .yes a :: frames, t => some (.no a t :: frames, none)
  | .cases, .subject :: frames, t => some (.matched :: frames, some (.select t []))
  | .bar, frame :: frames, t =>
    (frame.cases? t).map fun (a, done) => (.pattern a done :: frames, none)
  | .arrow, .pattern a done :: frames, t =>
    t.toPattern?.map fun p => (.body a done p :: frames, none)
  | token, frames, t => if token.isAtomic then token.begin? (.app t :: frames) else none

end Token

/-- The term of the tokens, after those that left the frames open. -/
def read : List Frame → Option Term → List Token → Option Term
  | _, none, [] => none
  | frames, some t, [] =>
    match closeFrames 0 frames t with
    | ([], t) => some t
    | _ => none
  | frames, none, token :: rest =>
    (token.begin? frames).bind fun (frames, focus) => read frames focus rest
  | frames, some t, token :: rest =>
    let (frames, t) := closeFrames token.level frames t
    (token.proceed? frames t).bind fun (frames, focus) => read frames focus rest

/-- The term of a text. -/
def Alphabet.read? (A : Alphabet) (text : String) : Option Term := read [] none (A.tokens text)

/-! ### Levels on both sides -/

/-- The level of the innermost frame. -/
def innerLevel : List Frame → Nat
  | [] => 0
  | frame :: _ => frame.level

/-- The level of the first token. -/
def nextLevel : List Token → Nat
  | [] => 0
  | token :: _ => token.level

theorem closeFrames_of_le {level : Nat} {frames : List Frame} (h : innerLevel frames ≤ level)
    (t : Term) : closeFrames level frames t = (frames, t) := by
  cases frames with
  | nil => rfl
  | cons frame frames =>
    rw [innerLevel] at h
    rw [closeFrames, if_neg (Nat.not_lt.2 h)]

/-- What follows ends the innermost frame. -/
theorem read_fill {frame : Frame} {rest : List Token} (h : nextLevel rest < frame.level)
    (frames : List Frame) (t : Term) :
    read (frame :: frames) (some t) rest = read frames (some (frame.fill t)) rest := by
  cases rest with
  | nil =>
    rw [nextLevel] at h
    rw [read, read, closeFrames, if_pos h]
  | cons token rest =>
    rw [nextLevel] at h
    rw [read, read, closeFrames, if_pos h]

theorem Token.level_of_isAtomic {token : Token} (h : token.isAtomic) :
    token.level = appLevel := by
  cases token <;> first | rfl | cases h

/-- An argument begins. -/
theorem read_atomic {token : Token} (h : token.isAtomic) {frames : List Frame}
    (hframes : innerLevel frames ≤ appLevel) (f : Term) (rest : List Token) :
    read frames (some f) (token :: rest) = read (.app f :: frames) none (token :: rest) := by
  have hproceed : token.proceed? frames f = token.begin? (.app f :: frames) := by
    cases token <;> first | rfl | cases h
  rw [read, read, token.level_of_isAtomic h, closeFrames_of_le hframes]
  dsimp only
  rw [hproceed]

/-! ### Reading one form after another -/

variable {A : Alphabet}

/-- At the place of a term of the level, the text is read as the term. -/
def Reads (A : Alphabet) (level : Nat) (text : String) (t : Term) : Prop :=
  ∀ (frames : List Frame) (rest : List Token), innerLevel frames ≤ max 1 level →
    nextLevel rest ≤ level →
    read frames none (A.tokens text ++ rest) = read frames (some t) rest

theorem Reads.parentheses {level : Nat} {text : String} {t : Term} (h : Reads A level text t)
    (level' : Nat) : Reads A level' ("(" ++ text ++ ")") t := by
  intro frames rest _ _
  have hopening : read frames none (A.tokens ("(" ++ text ++ ")") ++ rest) =
      read (.paren :: frames) none (A.tokens text ++ .closing :: rest) := by
    rw [Alphabet.tokens_parentheses]
    simp only [List.cons_append, List.append_assoc, List.nil_append]
    rfl
  rw [hopening, h _ _ (Nat.zero_le _) (Nat.zero_le _)]
  rfl

/-- A text of one level, with parentheses at the tighter ones. -/
theorem Reads.parenthesize {level : Nat} {text : String} {t : Term} (h : Reads A level text t)
    (level' : Nat) : Reads A level' (parenthesize (level < level') text) t := by
  rw [CoreCalculus.parenthesize]
  split
  · exact h.parentheses level'
  · rename_i hlevel
    rw [decide_eq_true_eq, Nat.not_lt] at hlevel
    intro frames rest hframes hrest
    exact h frames rest (by omega) (by omega)

/-- At each level the text of a term is read as the term; at the tightest it begins with a token
    that an argument can begin with. -/
structure Readable (A : Alphabet) (t : Term) : Prop where
  reads (level : Nat) : Reads A level (t.renderAt level) t
  begins : ∃ token rest, A.tokens (t.renderAt atomLevel) = token :: rest ∧ token.isAtomic

namespace Readable

variable {x : String} {f a b e t : Term}

theorem of_token {token : Token} (hrender : ∀ level, t.renderAt level = x)
    (htokens : A.tokens x = [token]) (hatomic : token.isAtomic)
    (hbegin : ∀ frames, token.begin? frames = some (frames, some t)) : Readable A t where
  reads level frames rest _ _ := by
    rw [hrender, htokens, List.singleton_append, read, hbegin]
    rfl
  begins := ⟨token, [], by rw [hrender, htokens], hatomic⟩

/-- A form with a level of its own. -/
theorem of_parenthesize (level : Nat) {text : String} (hlevel : level < atomLevel)
    (hrender : ∀ level', t.renderAt level' = parenthesize (level < level') text)
    (h : Reads A level text t) : Readable A t where
  reads level' := hrender level' ▸ h.parenthesize level'
  begins := by
    refine ⟨.opening, A.tokens text ++ [.closing], ?_, rfl⟩
    rw [hrender, parenthesize, if_pos (decide_eq_true hlevel), Alphabet.tokens_parentheses]

theorem var (h : A.isVariable x) : Readable A (.var x) :=
  of_token (fun _ => rfl) (Alphabet.tokens_of_isVariable h) rfl fun _ => rfl

theorem ctor (h : A.isConstructor x) : Readable A (.ctor x) :=
  of_token (fun _ => rfl) (Alphabet.tokens_of_isConstructor h) rfl fun _ => rfl

theorem lit (l : Literal) : Readable A (.lit l) := by
  have hreads : Reads A notLevel l.render (.lit l) := by
    intro frames rest _ _
    rw [Alphabet.tokens_literal]
    rfl
  rcases hnegative : l.isNegative with _ | _
  · have hrender : ∀ level, (Term.lit l).renderAt level = l.render := by
      intro level
      rw [Term.renderAt, Literal.renderAt, hnegative]
      rfl
    exact of_token hrender (Alphabet.tokens_literal l) rfl fun _ => rfl
  · refine of_parenthesize notLevel (by decide) (fun level => ?_) hreads
    rw [Term.renderAt, Literal.renderAt, hnegative]
    rfl

/-- The last part of a form, which ends with the form. -/
theorem read_last (ht : Readable A t) {level : Nat} (frame : Frame)
    (hframe : frame.level = max 1 level) {rest : List Token}
    (hrest : nextLevel rest < frame.level) (frames : List Frame) :
    read (frame :: frames) none (A.tokens (t.renderAt level) ++ rest) =
      read frames (some (frame.fill t)) rest := by
  rw [ht.reads level (frame :: frames) rest (Nat.le_of_eq hframe) (by omega)]
  exact read_fill hrest frames t

/-- A part of a form that a token of its own ends. -/
theorem read_until (ht : Readable A t) {frame : Frame} (hframe : frame.level = 0) {token : Token}
    (htoken : token.level = 0) (frames : List Frame) (rest : List Token) :
    read (frame :: frames) none (A.tokens (t.renderAt 0) ++ token :: rest) =
      read (frame :: frames) (some t) (token :: rest) := by
  refine ht.reads 0 (frame :: frames) (token :: rest) ?_ (Nat.le_of_eq htoken)
  rw [innerLevel, hframe]
  exact Nat.zero_le _

theorem app (hf : Readable A f) (ha : Readable A a) : Readable A (.app f a) := by
  refine of_parenthesize appLevel (by decide) (fun _ => rfl) ?_
  intro frames rest hframes hrest
  obtain ⟨token, tokens, hbegins, hatomic⟩ := ha.begins
  have hfunc : nextLevel (token :: (tokens ++ rest)) ≤ appLevel :=
    Nat.le_of_eq (token.level_of_isAtomic hatomic)
  calc read frames none (A.tokens (f.renderAt appLevel ++ " " ++ a.renderAt atomLevel) ++ rest)
    _ = read frames none (A.tokens (f.renderAt appLevel) ++ token :: (tokens ++ rest)) := by
        rw [Alphabet.tokens_space, hbegins, List.append_assoc, List.cons_append]
    _ = read frames (some f) (token :: (tokens ++ rest)) := hf.reads appLevel _ _ hframes hfunc
    _ = read (.app f :: frames) none (token :: (tokens ++ rest)) :=
        read_atomic hatomic hframes f _
    _ = read (.app f :: frames) none (A.tokens (a.renderAt atomLevel) ++ rest) := by
        rw [hbegins, List.cons_append]
    _ = read frames (some (.app f a)) rest :=
        ha.read_last (.app f) rfl (Nat.lt_succ_of_le hrest) frames

theorem abs (hx : A.isVariable x) (ht : Readable A t) : Readable A (.abs x t) := by
  refine of_parenthesize 0 (by decide) (fun _ => rfl) ?_
  intro frames rest _ hrest
  calc read frames none (A.tokens ("\\" ++ x ++ ". " ++ t.renderAt 0) ++ rest)
    _ = read (.abs x :: frames) none (A.tokens (t.renderAt 0) ++ rest) := by
        rw [Alphabet.tokens_lambda, Alphabet.tokens_of_isVariable hx]
        rfl
    _ = read frames (some (.abs x t)) rest :=
        ht.read_last (.abs x) rfl (Nat.lt_succ_of_le hrest) frames

theorem fix (hx : A.isVariable x) (ht : Readable A t) : Readable A (.fix x t) := by
  refine of_parenthesize 0 (by decide) (fun _ => rfl) ?_
  intro frames rest _ hrest
  calc read frames none (A.tokens ("rec " ++ x ++ ". " ++ t.renderAt 0) ++ rest)
    _ = read (.fix x :: frames) none (A.tokens (t.renderAt 0) ++ rest) := by
        rw [Alphabet.tokens_fix, Alphabet.tokens_of_isVariable hx]
        rfl
    _ = read frames (some (.fix x t)) rest :=
        ht.read_last (.fix x) rfl (Nat.lt_succ_of_le hrest) frames

/-- The operand to the left is complete at an operator as loose as its own level. -/
theorem binary (op : BinaryOp) (ha : Readable A a) (hb : Readable A b) :
    Readable A (.binary op a b) := by
  have hop : 1 ≤ op.level ∧ op.level < atomLevel := by cases op <;> decide
  refine of_parenthesize op.level hop.2 (fun _ => rfl) ?_
  intro frames rest hframes hrest
  have hinner : innerLevel frames ≤ op.level := by rwa [Nat.max_eq_right hop.1] at hframes
  let right := A.tokens (b.renderAt (op.level + 1)) ++ rest
  calc read frames none (A.tokens (a.renderAt op.level ++ " " ++ op.symbol ++ " " ++
          b.renderAt (op.level + 1)) ++ rest)
    _ = read frames none (A.tokens (a.renderAt op.level) ++ .op op :: right) := by
        rw [Alphabet.tokens_binary, List.append_assoc, List.cons_append]
    _ = read frames (some a) (.op op :: right) :=
        ha.reads op.level frames (.op op :: right) hframes (Nat.le_refl op.level)
    _ = read (.right op a :: frames) none right := by
        have hclose : closeFrames (Token.op op).level frames a = (frames, a) := closeFrames_of_le hinner a
        rw [read, hclose]
        rfl
    _ = read frames (some (.binary op a b)) rest :=
        hb.read_last (.right op a) (Nat.max_eq_right (Nat.le_add_left 1 _)).symm
          (Nat.lt_succ_of_le hrest) frames

theorem not (ha : Readable A a) : Readable A (.not a) := by
  refine of_parenthesize notLevel (by decide) (fun _ => rfl) ?_
  intro frames rest _ hrest
  calc read frames none (A.tokens ("not " ++ a.renderAt appLevel) ++ rest)
    _ = read (.not :: frames) none (A.tokens (a.renderAt appLevel) ++ rest) := by
        rw [Alphabet.tokens_not]
        rfl
    _ = read frames (some (.not a)) rest := ha.read_last .not rfl (Nat.lt_succ_of_le hrest) frames

theorem cond (ha : Readable A a) (hb : Readable A b) (he : Readable A e) :
    Readable A (.cond a b e) := by
  refine of_parenthesize 0 (by decide) (fun _ => rfl) ?_
  intro frames rest _ hrest
  let no := A.tokens (e.renderAt 0) ++ rest
  let yes := A.tokens (b.renderAt 0) ++ .no :: no
  calc read frames none (A.tokens ("if " ++ a.renderAt 0 ++ " then " ++ b.renderAt 0 ++ " else " ++
          e.renderAt 0) ++ rest)
    _ = read (.test :: frames) none (A.tokens (a.renderAt 0) ++ .yes :: yes) := by
        rw [Alphabet.tokens_cond]
        simp only [List.cons_append, List.append_assoc]
        rfl
    _ = read (.test :: frames) (some a) (.yes :: yes) := ha.read_until rfl rfl frames yes
    _ = read (.yes a :: frames) (some b) (.no :: no) := hb.read_until rfl rfl frames no
    _ = read frames (some (.cond a b e)) rest :=
        he.read_last (.no a b) rfl (Nat.lt_succ_of_le hrest) frames

/-! ### Patterns and matches -/

theorem apply (hf : Readable A f) {args : List Term} (hargs : ∀ a ∈ args, Readable A a) :
    Readable A (f.apply args) := by
  induction args generalizing f with
  | nil => exact hf
  | cons a args ih =>
    rw [List.forall_mem_cons] at hargs
    exact ih (hf.app hargs.1) hargs.2

theorem pattern {p : Pattern} (h : p.isSpelled A) : Readable A p.asTerm := by
  induction p using Pattern.induct with
  | var x => exact var h
  | lit l => exact lit l
  | ctor name subs ih =>
    rw [Pattern.isSpelled, Bool.and_eq_true, Pattern.allSpelled_iff] at h
    rw [Pattern.asTerm, Pattern.asTerms_eq_map]
    refine (ctor h.1).apply ?_
    rw [List.forall_mem_map]
    exact fun p hp => ih p hp (h.2 p hp)

/-- The pattern of a case. -/
theorem read_pattern {p : Pattern} (h : p.isSpelled A) (a : Term)
    (done : List (Pattern × Term)) (frames : List Frame) (rest : List Token) :
    read (.pattern a done :: frames) none (A.tokens p.render ++ .arrow :: rest) =
      read (.body a done p :: frames) none rest := by
  have hrender : p.render = p.asTerm.renderAt 0 := (p.renderAt_asTerm false).symm
  have harrow : (Token.arrow).proceed? (.pattern a done :: frames) p.asTerm =
      some (.body a done p :: frames, none) := by
    rw [Token.proceed?, p.toPattern?_asTerm]
    rfl
  have hclose : closeFrames (Token.arrow).level (.pattern a done :: frames) p.asTerm =
      (.pattern a done :: frames, p.asTerm) := rfl
  rw [hrender, (pattern h).read_until rfl rfl, read, hclose]
  dsimp only
  rw [harrow]
  rfl

/-- The cases that are left, after a frame that knows the cases before. -/
theorem read_cases {cases : List (Pattern × Term)}
    (hcases : ∀ c ∈ cases, c.1.isSpelled A ∧ Readable A c.2) {frame : Frame} {t : Term}
    (done : List (Pattern × Term)) (hframe : frame.cases? t = some (a, done))
    (frames : List Frame) {rest : List Token} (hrest : nextLevel rest = 0) :
    read (frame :: frames) (some t) (A.tokens (Term.renderCases cases) ++ rest) =
      read frames (some (.select a (done ++ cases))) rest := by
  obtain ⟨hlevel, hfill⟩ := Frame.of_cases? hframe
  induction cases generalizing frame t done with
  | nil =>
    have hnone : A.tokens (Term.renderCases []) ++ rest = rest := rfl
    rw [hnone, read_fill (by omega), hfill, List.append_nil]
  | cons c cases ih =>
    obtain ⟨p, b⟩ := c
    rw [List.forall_mem_cons] at hcases
    obtain ⟨⟨hp, hb⟩, hcases⟩ := hcases
    let level := if cases.isEmpty then 0 else 1
    let others := A.tokens (Term.renderCases cases) ++ rest
    -- the body is printed tighter than what follows: the end of the match, or a further case
    have hothers : nextLevel others ≤ level := by
      cases cases with
      | nil => exact Nat.le_of_eq hrest
      | cons c cases =>
        simp only [others, level, Term.renderCases,
          Alphabet.tokens_case _ _ (Alphabet.beginsApart_renderCases cases)]
        exact Nat.le_refl 1
    calc read (frame :: frames) (some t) (A.tokens (Term.renderCases ((p, b) :: cases)) ++ rest)
      _ = read (frame :: frames) (some t) (.bar :: (A.tokens p.render ++ .arrow ::
            (A.tokens (b.renderAt level) ++ others))) := by
          rw [Term.renderCases, Alphabet.tokens_case _ _ (Alphabet.beginsApart_renderCases cases)]
          simp only [List.cons_append, List.append_assoc]
          rfl
      _ = read (.pattern a done :: frames) none (A.tokens p.render ++ .arrow ::
            (A.tokens (b.renderAt level) ++ others)) := by
          have hinner : innerLevel (frame :: frames) ≤ Token.bar.level := Nat.le_of_eq hlevel
          have hclose := closeFrames_of_le hinner t
          rw [read, hclose]
          dsimp only
          rw [Token.proceed?, hframe]
          rfl
      _ = read (.body a done p :: frames) none (A.tokens (b.renderAt level) ++ others) :=
          read_pattern hp a done frames _
      _ = read (.body a done p :: frames) (some b) others :=
          hb.reads level (.body a done p :: frames) others (Nat.le_max_left _ _) hothers
      _ = read frames (some (.select a (done ++ (p, b) :: cases))) rest := by
          rw [List.append_cons]
          exact ih hcases _ rfl rfl rfl

theorem select {cases : List (Pattern × Term)} (ha : Readable A a)
    (hcases : ∀ c ∈ cases, c.1.isSpelled A ∧ Readable A c.2) : Readable A (.select a cases) := by
  refine of_parenthesize 0 (by decide) (fun _ => rfl) ?_
  intro frames rest _ hrest
  let others := A.tokens (Term.renderCases cases) ++ rest
  calc read frames none (A.tokens ("match " ++ a.renderAt 0 ++ " with" ++ Term.renderCases cases) ++
          rest)
    _ = read (.subject :: frames) none (A.tokens (a.renderAt 0) ++ .cases :: others) := by
        rw [Alphabet.tokens_select _ (Alphabet.beginsApart_renderCases cases)]
        simp only [List.cons_append, List.append_assoc]
        rfl
    _ = read (.subject :: frames) (some a) (.cases :: others) :=
        ha.read_until rfl rfl frames others
    _ = read (.matched :: frames) (some (.select a [])) others := rfl
    _ = read frames (some (.select a cases)) rest :=
        read_cases hcases [] rfl frames (Nat.le_zero.1 hrest)

end Readable

/-! ### Every term -/

theorem Term.readable {t : Term} (h : t.isSpelled A) : Readable A t := by
  induction t using induct with
  | var x => exact .var h
  | lit l => exact .lit l
  | ctor name => exact .ctor h
  | app f a ihf iha =>
    rw [isSpelled, Bool.and_eq_true] at h
    exact (ihf h.1).app (iha h.2)
  | abs x t ih =>
    rw [isSpelled, Bool.and_eq_true] at h
    exact .abs h.1 (ih h.2)
  | fix x t ih =>
    rw [isSpelled, Bool.and_eq_true] at h
    exact .fix h.1 (ih h.2)
  | binary op a b iha ihb =>
    rw [isSpelled, Bool.and_eq_true] at h
    exact .binary op (iha h.1) (ihb h.2)
  | not a ih => exact .not (ih h)
  | cond a b e iha ihb ihe =>
    rw [isSpelled, Bool.and_eq_true, Bool.and_eq_true] at h
    exact .cond (iha h.1.1) (ihb h.1.2) (ihe h.2)
  | select a cases iha ihc =>
    rw [isSpelled, Bool.and_eq_true, casesSpelled_iff] at h
    exact .select (iha h.1) fun c hc => ⟨(h.2 c hc).1, ihc c hc (h.2 c hc).2⟩

/-- **Reading back.**  The text of a term is read as the term. -/
theorem Alphabet.read?_render {t : Term} (h : t.isSpelled A) : A.read? t.render = some t := by
  have hread := (Term.readable h).reads 0 [] [] (Nat.zero_le _) (Nat.le_refl 0)
  rwa [List.append_nil] at hread

/-- Operators of one level associate to the left, and a binder extends to the right. -/
example : Alphabet.ascii.read? "\\x. x - y - 1" = some (.abs "x"
    (.binary .sub (.binary .sub (.var "x") (.var "y")) (.lit (.int 1)))) := by decide

/-- **Unambiguity.**  Terms with the same text are the same, when their names are names. -/
theorem Term.render_injective (A : Alphabet) {t u : Term} (ht : t.isSpelled A)
    (hu : u.isSpelled A) (h : t.render = u.render) : t = u := by
  have hread : some t = some u := by rw [← A.read?_render ht, ← A.read?_render hu, h]
  exact Option.some.inj hread

/-- A match without cases as a subject, a binder before a further case, and one that extends to
    the end. -/
theorem render_injective_match :
    let body := (Term.var "f").apply [.lit (.int (-1)), .var "y"]
    let body' : Term := .app (.app (.var "f") (.lit (.int (-1)))) (.var "y")
    let cases (body : Term) : List (Pattern × Term) :=
      [(.ctor "Cons" [.ctor "Box" [.var "h"], .var "t"], .abs "y" (.var "h")),
        (.ctor "Nil" [], .abs "y" body)]
    let t : Term := .select (.select (.var "xs") []) (cases body)
    let u : Term := .select (.select (.var "xs") []) (cases body')
    let text := "match match xs with with | Cons (Box h) t -> (\\y. h) | Nil -> \\y. f (-1) y"
    t.isSpelled .ascii ∧ u.isSpelled .ascii ∧ t.render = text ∧ u.render = text ∧ t = u := by
  intro body body' cases t u text
  have ht : t.isSpelled .ascii := by decide
  have hu : u.isSpelled .ascii := by decide
  have htext : t.render = text := by decide
  have htext' : u.render = text := by decide
  exact ⟨ht, hu, htext, htext', Term.render_injective .ascii ht hu (htext.trans htext'.symm)⟩

end CoreCalculus
