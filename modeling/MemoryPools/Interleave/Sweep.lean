import MemoryPools.Interleave.Call
import MemoryPools.Interleave.Linked

/-!
# Calls that sweep a chain

A loop walks along a chain through the links of its cells and takes some of the cells
out. Given what one iteration does, the loop ends behind the last cell, and the chain
has the cells that were kept.
-/

namespace Interleave

variable {α σ κ ρ : Type} [DecidableEq α]

def unlinkNext (next : α → Option α) (v : α) : Option α → α → Option α
  | none => next
  | some c => Function.update next c (next v)

def unlinkHead (next : α → Option α) (head : Option α) (v : α) : Option α → Option α
  | none => next v
  | some _ => head

/-- What an iteration of the loop does at the cell `v`. `At` says where the call stands
between two iterations. -/
structure Sweeps (step : σ → κ → σ × Control κ ρ) (drop : α → Bool)
    (At : (α → Option α) → Option α → Option α → List α → σ → κ → Prop) : Prop where
  keep : ∀ {next head current dropped s pc v}, At next head current dropped s pc →
    readLink next head current = some v → drop v = false →
    ∃ s' pc', Goes step s pc s' pc' ∧ At next head (some v) dropped s' pc'
  drop : ∀ {next head current dropped s pc v}, At next head current dropped s pc →
    readLink next head current = some v → drop v = true →
    ∃ s' pc', Goes step s pc s' pc' ∧
      At (unlinkNext next v current) (unlinkHead next head v current) current (dropped ++ [v])
        s' pc'

variable {step : σ → κ → σ × Control κ ρ} {drop : α → Bool}
  {At : (α → Option α) → Option α → Option α → List α → σ → κ → Prop}
  {next : α → Option α} {head current : Option α} {pre rest dropped : List α} {s : σ} {pc : κ}

theorem Walk.unlinked {v : α} (h : Walk next head current pre (v :: rest)) :
    Walk (unlinkNext next v current) (unlinkHead next head v current) current pre rest ∧
      ∀ q, q ∉ pre → unlinkNext next v current q = next q := by
  cases current with
  | none => exact ⟨h.unlink_head, fun q _ => rfl⟩
  | some c =>
    obtain ⟨hc, hw⟩ := h.unlink
    refine ⟨hw, fun q hq => ?_⟩
    apply Function.update_of_ne
    rintro rfl
    exact hq hc

theorem Sweeps.sweep (h : Sweeps step drop At) (ha : At next head current dropped s pc)
    (hw : Walk next head current pre rest) :
    ∃ next' head' current' s' pc', Goes step s pc s' pc' ∧
      At next' head' current' (dropped ++ rest.filter drop) s' pc' ∧
      Walk next' head' current' (pre ++ rest.filter fun v => !drop v) [] ∧
      ∀ q, q ∉ pre ++ rest → next' q = next q := by
  induction rest generalizing next head current pre dropped s pc with
  | nil =>
    refine ⟨next, head, current, s, pc, .refl, ?_, ?_, fun q _ => rfl⟩
    · simpa using ha
    · simpa using hw
  | cons v rest ih =>
    have hv := hw.read
    cases hd : drop v with
    | false =>
      obtain ⟨s₁, pc₁, hgoes, ha⟩ := h.keep ha hv hd
      obtain ⟨next', head', current', s', pc', hgoes', ha', hw', hn⟩ := ih ha hw.advance
      refine ⟨next', head', current', s', pc', hgoes.trans hgoes', ?_, ?_, fun q hq => hn q ?_⟩
      · simpa [List.filter_cons, hd] using ha'
      · simpa [List.filter_cons, hd] using hw'
      · simpa using hq
    | true =>
      obtain ⟨s₁, pc₁, hgoes, ha⟩ := h.drop ha hv hd
      obtain ⟨hw₁, hsame⟩ := hw.unlinked
      obtain ⟨next', head', current', s', pc', hgoes', ha', hw', hn⟩ := ih ha hw₁
      refine ⟨next', head', current', s', pc', hgoes.trans hgoes', ?_, ?_, fun q hq => ?_⟩
      · simpa [List.filter_cons, hd] using ha'
      · simpa [List.filter_cons, hd] using hw'
      · have hq : q ∉ pre ∧ q ≠ v ∧ q ∉ rest := by simpa using hq
        rw [hn q (by simp [hq]), hsame q hq.1]

theorem Sweeps.run (h : Sweeps step drop At) {l : List α} (ha : At next head none [] s pc)
    (hl : Linked next head l) :
    ∃ next' head' current' s' pc', Goes step s pc s' pc' ∧
      At next' head' current' (l.filter drop) s' pc' ∧ readLink next' head' current' = none ∧
      Linked next' head' (l.filter fun v => !drop v) ∧ ∀ q, q ∉ l → next' q = next q := by
  obtain ⟨next', head', current', s', pc', hgoes, ha', hw, hn⟩ := h.sweep ha (.start hl)
  refine ⟨next', head', current', s', pc', hgoes, ha', hw.read, ?_, hn⟩
  simpa using hw.chain

omit [DecidableEq α] in
/-- A loop that keeps every cell ends behind the last one. -/
theorem Walk.passes {At : Option α → κ}
    (hkeep : ∀ {current v}, readLink next head current = some v → drop v = false →
      Goes step s (At current) s (At (some v)))
    (hw : Walk next head current pre rest) (hnone : ∀ v ∈ rest, drop v = false) :
    ∃ current', Goes step s (At current) s (At current') ∧ readLink next head current' = none := by
  induction rest generalizing current pre with
  | nil => exact ⟨current, .refl, hw.read⟩
  | cons v rest ih =>
    have hgoes := hkeep hw.read (hnone v (by simp))
    obtain ⟨current', hgoes', hread⟩ := ih hw.advance fun u hu => hnone u (by simp [hu])
    exact ⟨current', hgoes.trans hgoes', hread⟩

end Interleave
