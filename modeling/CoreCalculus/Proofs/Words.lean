/-
  CoreCalculus/Proofs/Words.lean
  ==============================
  **Cutting a text into words.**

  Some characters, the marks, end a word and may be tokens themselves; what is between two
  marks is a word.  So a text can be cut at any of its marks, and each half scanned alone.
-/
import CoreCalculus.Text

namespace CoreCalculus

variable {τ : Type} {mark? : Char → Option (List τ)} {ofWord : List Char → List τ}

/-- The tokens of characters that follow the beginning of a word. -/
def scanWords (mark? : Char → Option (List τ)) (ofWord : List Char → List τ) (word : List Char) :
    List Char → List τ
  | [] => ofWord word
  | c :: cs =>
    match mark? c with
    | some tokens => ofWord word ++ tokens ++ scanWords mark? ofWord [] cs
    | none => scanWords mark? ofWord (word ++ [c]) cs

/-- Without marks all is one word. -/
theorem scanWords_of_unmarked {w : List Char} (h : ∀ c ∈ w, mark? c = none) (word : List Char) :
    scanWords mark? ofWord word w = ofWord (word ++ w) := by
  induction w generalizing word with
  | nil => rw [scanWords, List.append_nil]
  | cons c w ih =>
    rw [List.forall_mem_cons] at h
    rw [scanWords, h.1]
    dsimp only
    rw [ih h.2, List.append_assoc, List.singleton_append]

/-- Cut at a mark. -/
theorem scanWords_mark {c : Char} {tokens : List τ} (h : mark? c = some tokens)
    (word first rest : List Char) :
    scanWords mark? ofWord word (first ++ c :: rest) =
      scanWords mark? ofWord word first ++ tokens ++ scanWords mark? ofWord [] rest := by
  induction first generalizing word with
  | nil => simp only [List.nil_append, scanWords, h]
  | cons d first ih =>
    rw [List.cons_append, scanWords, scanWords]
    rcases mark? d with _ | tokens'
    · exact ih _
    · simp only [ih, List.append_assoc]

end CoreCalculus
