import Tritium.Serve.Sse

/-!
# Incremental detokenization

What was decoded before a token stays in front of what is decoded with it, unless the token completes
a character whose first bytes were decoded as a replacement. That replacement has been emitted then,
and nothing takes it back.
-/

namespace Tritium.Serve

open List

theorem sliceFrom?_append (first second : List Char) :
    sliceFrom? (first ++ second) (byteLen first) = some second := by
  induction first with
  | nil => rw [nil_append, byteLen, map_nil, sum_nil, sliceFrom?]
  | cons char first ih =>
    obtain ⟨size, _⟩ := Nat.exists_eq_add_of_lt char.utf8Size_pos
    have hlength : byteLen (char :: first) = size + byteLen first + 1 := by
      rw [byteLen, map_cons, sum_cons, byteLen]
      omega
    have hrest : size + byteLen first + 1 - char.utf8Size = byteLen first := by omega
    rw [cons_append, hlength, sliceFrom?, if_pos (by omega), hrest, ih]

theorem isSome_sliceFrom?_floorFrom (text : List Char) (position : ℕ) :
    (sliceFrom? text (floorFrom text position)).isSome := by
  induction position with
  | zero => cases text <;> rfl
  | succ position ih =>
    rw [floorFrom]
    split_ifs with hboundary
    · exact hboundary
    · exact ih

theorem floorCharBoundary_append (first second : List Char) :
    floorCharBoundary (first ++ second) (byteLen first) = byteLen first := by
  have hle : byteLen first ≤ byteLen (first ++ second) := by simp [byteLen]
  have hboundary : isCharBoundary (first ++ second) (byteLen first) = true := by
    rw [isCharBoundary, sliceFrom?_append]
    rfl
  rw [floorCharBoundary, Nat.min_eq_left hle]
  cases hlength : byteLen first with
  | zero => rfl
  | succ position => rw [floorFrom, if_pos (hlength ▸ hboundary)]

/-- What a replaced character becomes is settled by the bytes that follow it next. -/
theorem replacement_prefix_lossyFrom (char : Incomplete) (more rest : List UInt8)
    (hfinal : [replacement] <+: lossyFrom (some char) (more ++ rest)) :
    [replacement] <+: lossyFrom (some char) more := by
  induction more generalizing char with
  | nil => exact prefix_refl _
  | cons byte more ih =>
    rw [cons_append, lossyFrom, nextByte] at hfinal
    rw [lossyFrom, nextByte]
    split_ifs at hfinal ⊢
    · exact (singleton_prefix_cons_iff).mpr ((singleton_prefix_cons_iff).mp hfinal)
    · exact ih _ hfinal
    · exact ⟨_, rfl⟩

theorem lossyFrom_prefix (state : Option Incomplete) (bytes more rest : List UInt8)
    (hfinal : lossyFrom state bytes <+: lossyFrom state (bytes ++ (more ++ rest))) :
    lossyFrom state bytes <+: lossyFrom state (bytes ++ more) := by
  induction bytes generalizing state with
  | nil =>
    cases state with
    | none => exact nil_prefix
    | some char => exact replacement_prefix_lossyFrom char more rest hfinal
  | cons byte bytes ih =>
    rw [cons_append, lossyFrom, lossyFrom, prefix_append_right_inj] at hfinal ⊢
    exact ih _ hfinal

namespace Tokenizer

variable (tokenizer : Tokenizer)

def content (tokens : List UInt32) : List UInt32 := tokens.filter (· ≠ tokenizer.eos)

theorem decode_prefix (done : List UInt32) (token : UInt32) (rest : List UInt32)
    (hfinal : tokenizer.decode done <+: tokenizer.decode (done ++ token :: rest)) :
    tokenizer.decode done <+: tokenizer.decode (done ++ [token]) := by
  rw [decode, decode, flatMap_append] at hfinal ⊢
  rw [flatMap_singleton]
  exact lossyFrom_prefix none _ _ _ hfinal

end Tokenizer

namespace IncrementalDetok

variable (tokenizer : Tokenizer) {token : UInt32}

/-- The state in which `done` has been decoded. -/
def after (done : List UInt32) : IncrementalDetok := ⟨done, byteLen (tokenizer.decode done)⟩

/-- A push never panics, and emits what is new whenever the earlier text stays in front. -/
theorem push_after (done : List UInt32) (htoken : token ≠ tokenizer.eos) :
    ∃ text, (after tokenizer done).push tokenizer token =
        .ok (text, after tokenizer (done ++ [token])) ∧
      (tokenizer.decode done <+: tokenizer.decode (done ++ [token]) →
        tokenizer.decode done ++ text = tokenizer.decode (done ++ [token])) := by
  set full := tokenizer.decode (done ++ [token]) with hfull
  obtain ⟨text, htext⟩ := Option.isSome_iff_exists.mp
    (isSome_sliceFrom?_floorFrom full (min (byteLen (tokenizer.decode done)) (byteLen full)))
  refine ⟨text, ?_, ?_⟩
  · rw [push, if_neg htoken]
    simp only [after, ← hfull, floorCharBoundary, htext]
    rfl
  · rintro ⟨new, hnew⟩
    rw [← floorCharBoundary, ← hnew, floorCharBoundary_append, sliceFrom?_append] at htext
    rw [← Option.some.inj htext, hnew]

variable {tokenizer} in
theorem pushAll_cons {detok next : IncrementalDetok} {tokens : List UInt32} {text : List Char}
    {texts : List (List Char)} (hpush : detok.push tokenizer token = .ok (text, next))
    (hrun : next.pushAll tokenizer tokens = .ok texts) :
    detok.pushAll tokenizer (token :: tokens) = .ok (text :: texts) := by
  rw [pushAll, hpush, Outcome.ok_bind]
  dsimp only
  rw [hrun]
  rfl

theorem pushAll_after (done tokens : List UInt32) :
    ∃ texts, (after tokenizer done).pushAll tokenizer tokens = .ok texts ∧
      (tokenizer.decode done ++ texts.flatten = tokenizer.decode (done ++ tokenizer.content tokens) ↔
        ∀ before token later, tokenizer.content tokens = before ++ token :: later →
          tokenizer.decode (done ++ before) <+: tokenizer.decode (done ++ before ++ [token])) := by
  induction tokens generalizing done with
  | nil => exact ⟨[], rfl, by simp [Tokenizer.content]⟩
  | cons token tokens ih =>
    by_cases htoken : token = tokenizer.eos
    · obtain ⟨texts, hrun, hiff⟩ := ih done
      refine ⟨[] :: texts, pushAll_cons (if_pos htoken) hrun, ?_⟩
      rw [Tokenizer.content, filter_cons_of_neg (by simpa using htoken)]
      exact hiff
    · obtain ⟨text, hpush, hnew⟩ := push_after tokenizer done htoken
      obtain ⟨texts, hrun, hiff⟩ := ih (done ++ [token])
      have hcontent : tokenizer.content (token :: tokens) = token :: tokenizer.content tokens :=
        filter_cons_of_pos (by simpa using htoken)
      refine ⟨text :: texts, pushAll_cons hpush hrun, ?_⟩
      rw [append_assoc, singleton_append, ← hcontent] at hiff
      rw [flatten_cons, ← append_assoc]
      constructor
      · intro hall before next later hsplit
        have hfirst := tokenizer.decode_prefix done token (tokenizer.content tokens)
          (hcontent ▸ hall ▸ append_assoc _ text _ ▸ prefix_append _ _)
        rw [hcontent] at hsplit
        cases before with
        | nil =>
          rw [append_nil, ← (cons.inj hsplit).1]
          exact hfirst
        | cons head before =>
          obtain ⟨rfl, htail⟩ := cons.inj hsplit
          have := hiff.mp (hnew hfirst ▸ hall) before next later htail
          rwa [append_assoc done [token] before] at this
      · intro hsteps
        have hfirst := hsteps [] token _ hcontent
        rw [append_nil] at hfirst
        rw [hnew hfirst, hiff]
        intro before next later hsplit
        have := hsteps (token :: before) next later (by rw [hcontent, hsplit, cons_append])
        rwa [append_assoc done [token] before]

/-- The texts are the decoding of the tokens exactly when no token completes a character that was
decoded without it as a replacement. -/
theorem pushAll_concat_iff (tokens : List UInt32) :
    ∃ texts, new.pushAll tokenizer tokens = .ok texts ∧
      (texts.flatten = tokenizer.decode (tokenizer.content tokens) ∧
          (∀ text ∈ texts, replacement ∈ text →
            replacement ∈ tokenizer.decode (tokenizer.content tokens)) ↔
        ∀ before token later, tokenizer.content tokens = before ++ token :: later →
          tokenizer.decode before <+: tokenizer.decode (before ++ [token])) := by
  obtain ⟨texts, hrun, hiff⟩ := pushAll_after tokenizer [] tokens
  refine ⟨texts, hrun, Iff.trans ⟨And.left, fun hall => ⟨hall, ?_⟩⟩ hiff⟩
  intro text htext hmem
  exact hall ▸ mem_flatten.mpr ⟨text, htext, hmem⟩

/-- The two bytes of `é` as two tokens. -/
def splitAccent : Tokenizer := ⟨fun token => if token = 1 then [0xC3] else [0xA9], 0⟩

theorem pushAll_splitAccent :
    new.pushAll splitAccent [1, 2] = .ok [[replacement], []] ∧
      splitAccent.decode (splitAccent.content [1, 2]) = ['é'] := by
  decide +kernel

end IncrementalDetok

end Tritium.Serve
