/-
  CoreCalculus/Proofs/Freshness.lean
  ==================================
  **Fresh names are fresh**: a name that is handed out is not among the names to avoid,
  and no name is handed out twice.

  The candidates of one stem differ, so of one more candidates than there are names
  to avoid, one is free.  Nothing else ends the search: `Search` has no bound on the
  attempts, and `freshName` gives what it ends in.

  That names made from different bases differ needs more.  A stem has no apostrophe, so
  the first apostrophe of a name is the one before its number, and a name has one
  number.  The numbers come from one counter, which only moves up; if it counts in words,
  it comes back to a number only after all words have been used.
-/
import Mathlib.Data.Finset.Card
import Mathlib.Data.List.Forall2
import Mathlib.Data.List.Nodup
import Mathlib.Data.List.Perm.Subperm
import Mathlib.Data.List.TakeWhile
import CoreCalculus.Supply

namespace CoreCalculus

/-! ### Counting -/

namespace Counting

/-- The number `i` steps after `n`. -/
def after (counting : Counting) (n : Nat) : Nat → Nat
  | 0 => n
  | i + 1 => counting.after (counting.succ n) i

variable (counting : Counting)

theorem after_after (n i j : Nat) :
    counting.after (counting.after n i) j = counting.after n (i + j) := by
  induction i generalizing n with
  | zero => rw [Nat.zero_add, after]
  | succ i ih => rw [after, ih, Nat.add_right_comm, after]

theorem after_succ (n i : Nat) :
    counting.after n (i + 1) = counting.succ (counting.after n i) :=
  (counting.after_after n i 1).symm

theorem after_unbounded (n i : Nat) : unbounded.after n i = n + i := by
  induction i generalizing n with
  | zero => rfl
  | succ i ih =>
    rw [after, ih, succ]
    omega

theorem after_word {n : Nat} (hn : n < wordCount) (i : Nat) :
    word.after n i = (n + i) % wordCount := by
  induction i with
  | zero => exact (Nat.mod_eq_of_lt hn).symm
  | succ i ih => rw [after_succ, ih, succ, Nat.mod_add_mod, Nat.add_assoc]

/-- The counter shows no number twice in the first `k` of its numbers from `n` on. -/
def Apart (n k : Nat) : Prop :=
  ∀ i < k, ∀ j < k, counting.after n i = counting.after n j → i = j

theorem apart_unbounded (n k : Nat) : unbounded.Apart n k := by
  intro i _ j _ h
  rw [after_unbounded, after_unbounded] at h
  omega

/-- Words come back after all of them have been used. -/
theorem apart_word {n k : Nat} (hn : n < wordCount) (hk : k ≤ wordCount) : word.Apart n k := by
  intro i hi j hj h
  rw [after_word hn, after_word hn] at h
  unfold wordCount at hn hk h
  omega

variable {counting} {n k : Nat}

theorem Apart.mono {k' : Nat} (h : counting.Apart n k) (hk : k' ≤ k) : counting.Apart n k' :=
  fun i hi j hj => h i (by omega) j (by omega)

theorem Apart.from (h : counting.Apart n k) (m : Nat) :
    counting.Apart (counting.after n m) (k - m) := by
  intro i hi j hj heq
  rw [after_after, after_after] at heq
  have := h (m + i) (by omega) (m + j) (by omega) heq
  omega

end Counting

namespace Supply

/-! ### Names and their numbers -/

theorem candidate_injective (stem : String) {m n : Nat} (h : candidate stem m = candidate stem n) :
    m = n := by
  have hrepr : Nat.repr m = Nat.repr n := (String.append_right_inj _).1 h
  have hdigits : Nat.toDigits 10 m = Nat.toDigits 10 n := by
    rw [← Nat.toList_repr, ← Nat.toList_repr, hrepr]
  have hvalue := congrArg (fun cs => Nat.ofDigitChars 10 cs 0) hdigits
  simpa only [Nat.ofDigitChars_ten_toDigits] using hvalue

/-- Cutting a candidate at its first apostrophe gives the stem back. -/
theorem stem_candidate_stem (base : String) (n : Nat) :
    stem (candidate (stem base) n) = stem base := by
  have hcut : ∀ c ∈ (stem base).toList, decide (c ≠ '\x27') = true := by
    intro c hc
    rw [stem, String.toList_ofList] at hc
    exact List.mem_takeWhile_imp (p := (· ≠ '\x27')) hc
  have hlist : (candidate (stem base) n).toList =
      (stem base).toList ++ '\x27' :: (Nat.repr n).toList := by
    rw [candidate, String.toList_append, String.toList_append, List.append_assoc]
    rfl
  have htake : (candidate (stem base) n).toList.takeWhile (· ≠ '\x27') = (stem base).toList := by
    rw [hlist, List.takeWhile_append_of_pos hcut, List.takeWhile_cons_of_neg (by simp),
      List.append_nil]
  rw [stem, htake, String.ofList_toList]

/-- A name has one number, whatever it was made from. -/
theorem number_unique {base base' : String} {m n : Nat}
    (h : candidate (stem base) m = candidate (stem base') n) : m = n := by
  have hstem : stem base = stem base' := by
    rw [← stem_candidate_stem base m, h, stem_candidate_stem]
  rw [hstem] at h
  exact candidate_injective _ h

/-! ### The search for a name -/

/-- If the search ends at a name to avoid, it has met such names only. -/
theorem mem_of_firstFree_mem {stem : String} {avoid : List String} {counting : Counting}
    {attempts n : Nat} (h : candidate stem (firstFree stem avoid attempts n counting) ∈ avoid) :
    ∀ i ≤ attempts, candidate stem (counting.after n i) ∈ avoid := by
  induction attempts generalizing n with
  | zero =>
    intro i hi
    obtain rfl : i = 0 := by omega
    exact h
  | succ attempts ih =>
    rw [firstFree] at h
    split at h
    · rename_i hn
      intro i hi
      cases i with
      | zero => exact hn
      | succ i => exact ih h i (by omega)
    · rename_i hn
      exact absurd h hn

theorem freshName_not_mem_of_apart {counting : Counting} {s : Supply} {avoid : List String}
    (hapart : counting.Apart s.next (avoid.length + 1)) (base : String) :
    (s.freshName base avoid counting).1 ∉ avoid := by
  intro h
  have hall := mem_of_firstFree_mem h
  let candidates :=
    (List.range (avoid.length + 1)).map fun i => candidate (stem base) (counting.after s.next i)
  have hnodup : candidates.Nodup := by
    refine List.Nodup.map_on (fun i hi j hj hij => ?_) List.nodup_range
    exact hapart i (List.mem_range.1 hi) j (List.mem_range.1 hj) (candidate_injective _ hij)
  have hsubset : candidates ⊆ avoid := by
    intro x hx
    obtain ⟨i, hi, rfl⟩ := List.mem_map.1 hx
    exact hall i (by simpa [Nat.lt_succ_iff] using List.mem_range.1 hi)
  have hlength := (List.subperm_of_subset hnodup hsubset).length_le
  simp only [candidates, List.length_map, List.length_range] at hlength
  omega

theorem freshName_not_mem (s : Supply) (base : String) (avoid : List String) :
    (s.freshName base avoid).1 ∉ avoid :=
  freshName_not_mem_of_apart (Counting.apart_unbounded _ _) base

/-- The search from the `n`-th candidate on passes over `missed`, which are to be avoided, and ends
    at the `m`-th, which is not. -/
inductive Search (stem : String) (avoid : List String) : Nat → List String → Nat → Prop
  | found {n : Nat} : candidate stem n ∉ avoid → Search stem avoid n [] n
  | next {n m : Nat} {missed : List String} : candidate stem n ∈ avoid →
      Search stem avoid (n + 1) missed m → Search stem avoid n (candidate stem n :: missed) m

theorem exists_search {stem : String} {avoid : List String} {attempts n : Nat}
    (h : candidate stem (firstFree stem avoid attempts n) ∉ avoid) :
    ∃ missed, Search stem avoid n missed (firstFree stem avoid attempts n) := by
  induction attempts generalizing n with
  | zero => exact ⟨[], .found h⟩
  | succ attempts ih =>
    rw [firstFree] at h ⊢
    split at h
    · rename_i hn
      rw [if_pos hn]
      obtain ⟨missed, hsearch⟩ := ih h
      exact ⟨_, .next hn hsearch⟩
    · rename_i hn
      rw [if_neg hn]
      exact ⟨[], .found hn⟩

namespace Search

variable {stem : String} {avoid missed : List String} {n m : Nat}

theorem missed_subset (h : Search stem avoid n missed m) : missed ⊆ avoid := by
  induction h with
  | found _ => exact List.nil_subset _
  | next hn _ ih => exact List.cons_subset.2 ⟨hn, ih⟩

theorem missed_eq (h : Search stem avoid n missed m) :
    missed = (List.range' n missed.length).map (candidate stem) := by
  induction h with
  | found _ => rfl
  | next _ _ ih =>
    rw [List.length_cons, List.range'_succ, List.map_cons, ← ih]

/-- No more candidates are missed than there are names to avoid. -/
theorem length_missed_le (h : Search stem avoid n missed m) :
    missed.length ≤ avoid.toFinset.card := by
  have hnodup : missed.Nodup := by
    rw [h.missed_eq]
    exact List.Nodup.map (fun _ _ => candidate_injective stem) List.nodup_range'
  rw [← List.toFinset_card_of_nodup hnodup]
  refine Finset.card_le_card fun x hx => ?_
  exact List.mem_toFinset.2 (h.missed_subset (List.mem_toFinset.1 hx))

end Search

/-! ### Names and ids of one supply -/

/-- What a supply is asked for: an id, or a name made from `base` that is not in `avoid`. -/
inductive Request where
  | id
  | name (base : String) (avoid : List String)

/-- The id or the name that is handed out. -/
def answer (s : Supply) (r : Request) (counting : Counting := .unbounded) :
    (Nat ⊕ String) × Supply :=
  match r with
  | .id => (.inl (s.draw counting).1, (s.draw counting).2)
  | .name base avoid =>
    (.inr (s.freshName base avoid counting).1, (s.freshName base avoid counting).2)

/-- The answers to one request after another. -/
def answers (s : Supply) (rs : List Request) (counting : Counting := .unbounded) :
    List (Nat ⊕ String) :=
  match rs with
  | [] => []
  | r :: rs => (s.answer r counting).1 :: (s.answer r counting).2.answers rs counting

/-- As many numbers as a request may use up. -/
def Request.cost : Request → Nat
  | .id => 1
  | .name _ avoid => avoid.length + 1

/-- As many numbers as the requests may use up. -/
def cost : List Request → Nat
  | [] => 0
  | r :: rs => r.cost + cost rs

/-- The number that an id is, or that a name ends in. -/
inductive Numbered : Nat ⊕ String → Nat → Prop
  | id (n : Nat) : Numbered (.inl n) n
  | name (base : String) (n : Nat) : Numbered (.inr (candidate (stem base) n)) n

theorem Numbered.unique {a : Nat ⊕ String} {m n : Nat} (h : Numbered a m) (h' : Numbered a n) :
    m = n := by
  cases h with
  | id => cases h'; rfl
  | name base m =>
    generalize ha : Sum.inr (candidate (stem base) m) = a at h'
    cases h' with
    | id => cases ha
    | name base' n => exact number_unique (Sum.inr.inj ha)

theorem firstFree_eq_after (stem : String) (avoid : List String) (counting : Counting)
    (attempts n : Nat) :
    ∃ i ≤ attempts, firstFree stem avoid attempts n counting = counting.after n i := by
  induction attempts generalizing n with
  | zero => exact ⟨0, Nat.le_refl _, rfl⟩
  | succ attempts ih =>
    rw [firstFree]
    split
    · obtain ⟨i, hi, heq⟩ := ih (counting.succ n)
      exact ⟨i + 1, by omega, heq⟩
    · exact ⟨0, by omega, rfl⟩

/-- What is handed out is numbered by the counter, which goes on after the number. -/
theorem answer_numbered (s : Supply) (r : Request) (counting : Counting) :
    ∃ i < r.cost, Numbered (s.answer r counting).1 (counting.after s.next i) ∧
      (s.answer r counting).2.next = counting.after s.next (i + 1) := by
  cases r with
  | id => exact ⟨0, Nat.zero_lt_one, .id _, rfl⟩
  | name base avoid =>
    obtain ⟨i, hi, heq⟩ := firstFree_eq_after (stem base) avoid counting avoid.length s.next
    refine ⟨i, Nat.lt_succ_of_le hi, ?_, ?_⟩
    · rw [← heq]
      exact .name base _
    · rw [counting.after_succ, ← heq]
      rfl

theorem answers_numbered {s : Supply} {rs : List Request} {counting : Counting} {a : Nat ⊕ String}
    (ha : a ∈ s.answers rs counting) : ∃ i < cost rs, Numbered a (counting.after s.next i) := by
  induction rs generalizing s with
  | nil => cases ha
  | cons r rs ih =>
    obtain ⟨i, hi, hn, hnext⟩ := s.answer_numbered r counting
    rw [cost]
    rcases List.mem_cons.1 ha with rfl | ha
    · exact ⟨i, by omega, hn⟩
    · obtain ⟨j, hj, hn'⟩ := ih ha
      rw [hnext, counting.after_after] at hn'
      exact ⟨i + 1 + j, by omega, hn'⟩

theorem nodup_answers {counting : Counting} {s : Supply} {rs : List Request}
    (hapart : counting.Apart s.next (cost rs)) : (s.answers rs counting).Nodup := by
  induction rs generalizing s with
  | nil => exact List.nodup_nil
  | cons r rs ih =>
    obtain ⟨i, hi, hn, hnext⟩ := s.answer_numbered r counting
    rw [cost] at hapart
    refine List.nodup_cons.2 ⟨fun hmem => ?_, ih ?_⟩
    · obtain ⟨j, hj, hn'⟩ := answers_numbered hmem
      rw [hnext, counting.after_after] at hn'
      have heq := hapart i (by omega) (i + 1 + j) (by omega) (hn.unique hn')
      omega
    · rw [hnext]
      exact (hapart.from (i + 1)).mono (by omega)

/-- **Fresh names are fresh.**  From any supply the search for a name ends, after at most one more
    candidate than there are names to avoid, and what it ends at is handed out and is not to be
    avoided.  Whatever names and ids a supply is asked for, one after another, no name and no id is
    handed out twice. -/
theorem handed_out_fresh (s : Supply) :
    (∀ base avoid, ∃ missed m, Search (stem base) avoid s.next missed m ∧
      missed.length ≤ avoid.toFinset.card ∧
      s.freshName base avoid = (candidate (stem base) m, ⟨m + 1⟩) ∧
      candidate (stem base) m ∉ avoid) ∧
    ∀ requests, (s.answers requests).Nodup := by
  refine ⟨fun base avoid => ?_, fun requests => nodup_answers (Counting.apart_unbounded _ _)⟩
  have hfree := s.freshName_not_mem base avoid
  obtain ⟨missed, hsearch⟩ := exists_search hfree
  exact ⟨missed, _, hsearch, hsearch.length_missed_le, rfl, hfree⟩

/-- Two names that are cut at the same place, with a candidate of theirs to avoid. -/
example :
    answers ⟨7⟩ [.name "y'3" [], .id, .name "y''" ["y'9", "y'10"], .name "" []] =
      [.inr "y'7", .inl 8, .inr "y'11", .inr "'12"] := by
  decide +kernel

/-! ### Counting in words -/

/-- An id was asked for, or the name is not to be avoided. -/
inductive Request.Grants : Request → Nat ⊕ String → Prop
  | id (n : Nat) : Grants .id (.inl n)
  | name (base : String) {avoid : List String} {x : String} :
      x ∉ avoid → Grants (.name base avoid) (.inr x)

/-- A supply that counts in words starts again at `0`, and still all that it hands out is fresh, as
    long as the requests cannot use up more numbers than there are words. -/
theorem word_answers_fresh {s : Supply} (hs : s.next < wordCount) {rs : List Request}
    (hcost : cost rs ≤ wordCount) :
    List.Forall₂ Request.Grants rs (s.answers rs .word) ∧ (s.answers rs .word).Nodup := by
  have hapart := Counting.apart_word hs hcost
  refine ⟨?_, nodup_answers hapart⟩
  clear hs hcost
  induction rs generalizing s with
  | nil => exact .nil
  | cons r rs ih =>
    obtain ⟨i, hi, -, hnext⟩ := s.answer_numbered r .word
    rw [cost] at hapart
    refine .cons ?_ (ih ?_)
    · cases r with
      | id => exact .id _
      | name base avoid =>
        exact .name base (freshName_not_mem_of_apart (hapart.mono (Nat.le_add_right _ _)) base)
    · rw [hnext]
      exact (hapart.from (i + 1)).mono (by omega)

/-- The largest word is followed by `0`, and `y'0` is to be avoided. -/
example :
    answers ⟨wordCount - 1⟩ [.id, .name "y" ["y'0"], .id] .word =
      [.inl (wordCount - 1), .inr "y'1", .inl 2] := by
  decide +kernel

end Supply

end CoreCalculus
