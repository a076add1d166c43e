/-
  CoreCalculus/Proofs/Optimization.lean
  =====================================
  **The optimization does not change results.**

  The two codes of a term are twins, and twins get to head normal forms that are twins.
  Full reduction goes on with the arguments of these.  Where the heads are the same leaf,
  the arguments are twins one by one.  But the arguments of two functions do not
  correspond: `S` hands its argument to both parts of an application, `B` and `C`
  to one of them only.  So the plain code has a function `K e` where the optimized code has
  `e` itself, at every level at which abstractions nest.

  What corresponds are the parts of the body (`Siblings.onParts`).  If the normal form of one
  function is found, then normal forms of the parts of its body are; by induction
  these are found for the parts of the other body too, and so for the arguments of the other
  function.  Functions are not data, so it does not matter that the normal forms differ.
-/
import CoreCalculus.Proofs.FunctionParts
import CoreCalculus.Proofs.TwinReduction

namespace CoreCalculus

namespace Code

variable {o o' : Bool}

/-! ### Normal forms -/

theorem Siblings.avoids_iff {e e' : Code} {xs : List String} (h : Siblings o o' e e') :
    Avoids xs e ↔ Avoids xs e' :=
  forall_congr' fun _ => imp_congr_left h.mem_free_iff

section

variable {N N' : Code → Prop} (hN : Analytic N) (hN' : Synthetic N')
include hN hN'

/-- From the arguments of one function, through the parts of its body, to those of the other. -/
theorem Siblings.args_of_body {b b' : Code} {x : String} {xs : List String}
    (hbody : OnParts N (x :: xs) b → OnParts N' (x :: xs) b')
    (h : ∀ e ∈ (b.abstract o x).spine.2, OnParts N xs e) :
    ∀ e ∈ (b'.abstract o' x).spine.2, OnParts N' xs e :=
  hN'.body b' (hbody (hN.body b h))

/-- What holds of siblings holds of their parts. -/
theorem Siblings.onParts (hparts : ∀ {e e' : Code}, Siblings o o' e e' → N e → N' e')
    {xs : List String} {e e' : Code} (h : Siblings o o' e e') (he : OnParts N xs e) :
    OnParts N' xs e' := by
  induction h generalizing xs with
  | var x => exact fun havoids => hparts (.var x) (he havoids)
  | const constant => exact fun havoids => hparts (.const constant) (he havoids)
  | comb combinator => exact fun havoids => hparts (.comb combinator) (he havoids)
  | @app f f' a a' hf ha ihf iha =>
    have happ := Siblings.app hf ha
    by_cases havoids : Avoids xs (.app f a)
    · exact (onParts_iff (happ.avoids_iff.1 havoids)).2 (hparts happ ((onParts_iff havoids).1 he))
    · obtain ⟨hef, hea⟩ := (onParts_app_iff havoids).1 he
      exact (onParts_app_iff (mt happ.avoids_iff.2 havoids)).2 ⟨ihf hef, iha hea⟩
  | @abstract b b' x _ ih =>
    obtain ⟨combinator, hlength, heq⟩ := exists_abstract_eq o x b
    obtain ⟨combinator', hlength', heq'⟩ := exists_abstract_eq o' x b'
    rw [heq] at he
    rw [heq']
    exact hN'.onParts hlength' (Siblings.args_of_body hN hN' ih (hN.onParts hlength he))

end

/-- Some code that realizes it is followed. -/
def Followable (o o' : Bool) (ρ : String → Code) (e : Code) : Prop :=
  ∃ c d, Realizes ρ c e ∧ Followed o o' c d

theorem Followable.args {ρ : String → Code} {cs es ds : List Code}
    (hcs : List.Forall₂ (Realizes ρ) cs es) (hds : List.Forall₂ (Followed o o') cs ds) :
    ∀ e ∈ es, Followable o o' ρ e := by
  induction hcs generalizing ds with
  | nil => simp
  | cons hc _ ih =>
    cases hds with
    | cons hd hds =>
      rw [List.forall_mem_cons]
      exact ⟨⟨_, _, hc, hd⟩, ih hds⟩

/-- All code that realizes it normalizes. -/
def Normalizable (ρ : String → Code) (e : Code) : Prop :=
  ∀ c, Realizes ρ c e → ∃ d, NormalizesTo c d

theorem Realizes.headsTo_comb {ρ : String → Code} {c : Code} {combinator : Combinator}
    {es : List Code} (h : Realizes ρ c (Code.apply (.comb combinator) es))
    (hlength : es.length < combinator.arity) :
    ∃ cs, HeadsTo c (Code.apply (.comb combinator) cs) ∧ List.Forall₂ (Realizes ρ) cs es := by
  have hspine : (Code.apply (.comb combinator) es).spine = (.comb combinator, es) :=
    spine_apply_of_leaf rfl es
  obtain ⟨cs, hreduces, hcs⟩ := h.spine fun x hx => by
    rw [hspine] at hx
    cases hx
  rw [hspine] at hreduces hcs
  exact ⟨cs, hreduces.headsTo_iff.2 (stays_comb (hcs.length_eq ▸ hlength)).headsTo, hcs⟩

theorem analytic_followable (ρ : String → Code) : Analytic (Followable o o' ρ) := by
  rintro combinator es hlength ⟨c, d, hc, hd⟩
  obtain ⟨cs, hw, hcs⟩ := hc.headsTo_comb hlength
  obtain ⟨ds, hds⟩ := hd.args rfl hw
  exact Followable.args hcs hds

theorem Normalizable.args {ρ : String → Code} {cs es : List Code}
    (hcs : List.Forall₂ (Realizes ρ) cs es) (h : ∀ e ∈ es, Normalizable ρ e) :
    ∃ ds, List.Forall₂ NormalizesTo cs ds := by
  induction hcs with
  | nil => exact ⟨[], .nil⟩
  | cons hc _ ih =>
    rw [List.forall_mem_cons] at h
    obtain ⟨d, hd⟩ := h.1 _ hc
    obtain ⟨ds, hds⟩ := ih h.2
    exact ⟨d :: ds, .cons hd hds⟩

theorem synthetic_normalizable (ρ : String → Code) : Synthetic (Normalizable ρ) := by
  intro combinator es hlength h c hc
  obtain ⟨cs, hw, hcs⟩ := hc.headsTo_comb hlength
  obtain ⟨ds, hds⟩ := Normalizable.args hcs h
  refine ⟨_, normalizesTo_iff.2 ⟨_, hw, ds, ?_, rfl⟩⟩
  rwa [spine_apply_of_leaf rfl]

/-- Siblings whose names stand for twins. -/
theorem Followable.normalizable {ρ ρ' : String → Code} {e e' : Code}
    (hρ : ∀ x, Twins o o' (ρ x) (ρ' x)) (h : Siblings o o' e e') (he : Followable o o' ρ e) :
    Normalizable ρ' e' := by
  obtain ⟨c, d, hc, hd⟩ := he
  intro c' hc'
  obtain ⟨d', hd', -⟩ := hd.twins (.closure h hρ hc hc')
  exact ⟨d', hd'⟩

/-- If the arguments of a function are followed, then those of its twin normalize. -/
theorem normalize_function {ρ ρ' : String → Code} {b b' : Code} {x : String}
    {gs gs' ds : List Code} (hb : Siblings o o' b b') (hρ : ∀ y, Twins o o' (ρ y) (ρ' y))
    (hgs : List.Forall₂ (Realizes ρ) gs (b.abstract o x).spine.2)
    (hgs' : List.Forall₂ (Realizes ρ') gs' (b'.abstract o' x).spine.2)
    (hds : List.Forall₂ (Followed o o') gs ds) : ∃ ds', List.Forall₂ NormalizesTo gs' ds' := by
  have hN : Analytic (Followable o o' ρ) := analytic_followable ρ
  have hN' := synthetic_normalizable ρ'
  have hbody : OnParts (Followable o o' ρ) [x] b → OnParts (Normalizable ρ') [x] b' :=
    hb.onParts hN hN' (Followable.normalizable hρ)
  refine Normalizable.args hgs' fun e he => onParts_nil.1 ?_
  exact Siblings.args_of_body hN hN' hbody
    (fun e he => onParts_nil.2 (Followable.args hgs hds e he)) e he

theorem normalize_args {as as' ds : List Code} (has : List.Forall₂ (Twins o o') as as')
    (hds : List.Forall₂ (Followed o o') as ds) :
    ∃ ds', List.Forall₂ NormalizesTo as' ds' ∧ List.Forall₂ SameData ds ds' := by
  induction has generalizing ds with
  | nil =>
    cases hds
    exact ⟨[], .nil, .nil⟩
  | cons ha _ ih =>
    cases hds with
    | cons hd hds =>
      obtain ⟨d', hd', hsame⟩ := hd.twins ha
      obtain ⟨ds', hds', hsames⟩ := ih hds
      exact ⟨d' :: ds', .cons hd' hds', .cons hsame hsames⟩

theorem SameData.apply {head : Code} (hleaf : head.spine = (head, [])) {ds ds' : List Code}
    (h : List.Forall₂ SameData ds ds') : SameData (head.apply ds) (head.apply ds') := by
  have heq : ∀ {ds ds' : List Code}, List.Forall₂ SameData ds ds' →
      (∀ d ∈ ds, d.isData) ∨ (∀ d ∈ ds', d.isData) → ds = ds' := by
    intro ds ds' h hdata
    induction h with
    | nil => rfl
    | cons hd _ ih =>
      simp only [List.forall_mem_cons] at hdata
      rw [hd (hdata.imp And.left And.left), ih (hdata.imp And.right And.right)]
  have hargs : ∀ {ds : List Code}, (head.apply ds).isData → ∀ d ∈ ds, d.isData := by
    intro ds hdata
    have hall := (plain_of_isData hdata).2
    rwa [spine_apply_of_leaf hleaf] at hall
  exact fun hdata => congrArg (Code.apply head) (heq h (hdata.imp hargs hargs))

/-- Twins at the head normalize when the arguments of one of them are followed. -/
theorem HeadTwins.normalize {w w' : Code} {ds : List Code} (h : HeadTwins o o' w w')
    (hw : Stays w w) (hds : List.Forall₂ (Followed o o') w.spine.2 ds) :
    ∃ ds', List.Forall₂ NormalizesTo w'.spine.2 ds' ∧
      SameData (w.spine.1.apply ds) (w'.spine.1.apply ds') := by
  cases h with
  | leaf hleaf has =>
    rw [spine_apply_of_leaf hleaf] at hds
    rw [spine_apply_of_leaf hleaf, spine_apply_of_leaf hleaf]
    obtain ⟨ds', hds', hsame⟩ := normalize_args has hds
    exact ⟨ds', hds', SameData.apply hleaf hsame⟩
  | @function _ _ b b' gs gs' _ _ x hb hρ hgs hgs' has =>
    cases has with
    | nil =>
      rw [spine_apply_of_leaf (spine_spine _), List.append_nil] at hds
      obtain ⟨ds', hds'⟩ := normalize_function hb hρ hgs hgs' hds
      refine ⟨ds', ?_, sameData_of_not_plain not_plain_function not_plain_function _ _⟩
      rwa [spine_apply_of_leaf (spine_spine _), List.append_nil]
    | @cons a _ rest =>
      obtain ⟨c, hc, -⟩ := Realizes.contract_rest hgs a rest
      cases StepsTo.unique hw hc
  | @inert _ _ as as' hc hc' has =>
    have hsame := sameData_of_not_plain (hc.not_plain as) (hc'.not_plain as')
    cases hc with
    | intro =>
      cases hc' with
      | @intro a' b' ha' hb' =>
        rw [← apply_append, spine_apply_of_leaf rfl] at hds
        obtain _ | ⟨-, _ | ⟨-, hds⟩⟩ := hds
        obtain ⟨ds', hds', -⟩ := normalize_args has hds
        refine ⟨a' :: b' :: ds', ?_, hsame _ _⟩
        rw [← apply_append, spine_apply_of_leaf rfl]
        exact .cons ha'.normalizesTo (.cons hb'.normalizesTo hds')

/-! ### Reduction -/

/-- **Reduction follows twins.** -/
theorem reduction_follows (o o' : Bool) : (∀ c w, HeadsTo c w → HeadFollows o o' c w) ∧
    ∀ c d, NormalizesTo c d → Followed o o' c d := by
  refine reduction_induct (fun H N hH hN c w h => headFollows_of hH hN h)
    fun H N hH hN c w ds hw hds => ?_
  obtain ⟨hheads, hfollows⟩ := hH c w hw
  have hfollowed := hds.imp fun a d h => (hN a d h).2
  refine .intro hheads hfollowed fun c' hc' => ?_
  obtain ⟨w', hw', htwins⟩ := hfollows.twins hc'
  obtain ⟨ds', hds', hsame⟩ := htwins.normalize hheads.stays hfollowed
  exact ⟨_, normalizesTo_iff.2 ⟨w', hw', ds', hds', rfl⟩, hsame⟩

/-- Twins reduce to the same data. -/
theorem NormalizesTo.twins {c c' d : Code} (h : NormalizesTo c d) (hc : Twins o o' c c')
    (hd : d.isData) : NormalizesTo c' d := by
  obtain ⟨d', hd', hsame⟩ := ((reduction_follows o o').2 c d h).twins hc
  rwa [hsame (.inl hd)]

end Code

open Code

/-- **The optimization does not change what reduces to data.** -/
theorem Term.optimized_reduction_iff (t : Term) {d : Code} (hd : d.isData) :
    (∃ code fuel, t.compile true = .ok code ∧ code.reduce? fuel = some (.ok d)) ↔
      ∃ code fuel, t.compile false = .ok code ∧ code.reduce? fuel = some (.ok d) := by
  have hreduces : ∀ o, (∃ code fuel, t.compile o = .ok code ∧
      code.reduce? fuel = some (.ok d)) ↔ NormalizesTo (t.code o) d := fun o => by
    simp only [compile_eq, Except.ok.injEq, exists_and_left, exists_eq_left',
      normalizesTo_iff_reduce?]
  rw [hreduces, hreduces]
  exact ⟨fun h => h.twins (.code true false t) hd, fun h => h.twins (.code false true t) hd⟩

/-- A function that is applied twice to a number. -/
theorem optimized_reduction_iff_twice :
    let twice : Term := .abs "f" (.abs "x" (.app (.var "f") (.app (.var "f") (.var "x"))))
    let t : Term := .app (.app twice (.abs "y" (.binary .add (.var "y") (.lit (.int 1)))))
      (.lit (.int 3))
    let d : Code := .const (.lit (.int 5))
    d.isData ∧ t.compile true ≠ t.compile false ∧
      ∃ code fuel, t.compile false = .ok code ∧ code.reduce? fuel = some (.ok d) := by
  intro twice t d
  have hdiffer : t.compile true ≠ t.compile false := by decide +kernel
  have hreduce : (t.code true).reduce? 20 = some (.ok d) := by decide +kernel
  exact ⟨rfl, hdiffer, (t.optimized_reduction_iff rfl).1 ⟨_, 20, Term.compile_eq true t, hreduce⟩⟩

end CoreCalculus
