import FlowTube.Proofs.Contractor.Answers

/-! The visits of a Picard step. A visit passes a slice or cuts it and stays, and a cut adds a
slice. If there are never more than `cap` slices, the slices passed and the slices that there may
still be decrease together by one with each visit. This holds in both directions, and for
whatever is to be kept on the way. -/

namespace FlowTube.Picard

variable {ι : Type} [Enclosure ι]

/-- The condition `I` is kept by visits and cuts, and limits the number of slices to `cap`. With
the excuse `E` a visit may fail, and a cut may leave a slice whole. -/
structure Visiting (p : Picard) (f : Dynamics ι) (minWidth : Float) (cap : ℕ)
    (I : TubeVector ι → Prop) (E : Prop) : Prop where
  capped : ∀ {x}, I x → x.sliceCount ≤ cap
  visit : ∀ {x i}, I x → i < x.sliceCount → ∀ forward,
    Settles (p.contractSlice f x i forward) (fun r => I r.1 ∧ r.1.sliceCount = x.sliceCount)
      (fun _ => E)
  cut : ∀ {x i}, I x → i < x.sliceCount → p.splittable x i minWidth = true →
    I (x.sample (x.sliceDomain i).mid).1 ∧
      (E ∨ (x.sample (x.sliceDomain i).mid).1.sliceCount = x.sliceCount + 1)

namespace Visiting

variable {p : Picard} {f : Dynamics ι} {minWidth : Float} {cap : ℕ} {I : TubeVector ι → Prop}
  {E : Prop} {x : TubeVector ι} {i : ℕ}

theorem forwardLoop (h : p.Visiting f minWidth cap I E) (hx : I x) (fuel i : ℕ) (found : Bool) :
    Settles (p.forwardLoop f minWidth fuel i found x)
      (fun r => I r.1 ∧ (E ∨ x.sliceCount ≤ r.1.sliceCount))
      (fun _ => E ∨ fuel + i + x.sliceCount < 2 * cap) := by
  have hcap := h.capped hx
  induction fuel generalizing i found x with
  | zero =>
    unfold Picard.forwardLoop
    split_ifs with hi
    · exact Or.inr (by omega)
    · exact ⟨hx, Or.inr le_rfl⟩
  | succ fuel ih =>
    unfold Picard.forwardLoop
    split_ifs with hi
    · refine ((h.visit hx hi true).mono (fun _ h => h) fun _ => Or.inl).bind fun r hr => ?_
      obtain ⟨hy, hsame⟩ := hr
      dsimp only
      split_ifs with hsplit
      · rw [Bool.and_eq_true] at hsplit
        obtain ⟨hz, hcount⟩ := h.cut hy (hsame ▸ hi) hsplit.2
        refine (ih hz i found (h.capped hz)).mono (fun _ h => ⟨h.1, ?_⟩) fun _ h => ?_
        · rcases hcount with hE | hcount
          · exact Or.inl hE
          · exact h.2.imp_right fun hle => by omega
        · rcases hcount with hE | hcount
          · exact Or.inl hE
          · exact h.imp_right fun hlt => by omega
      · exact (ih hy (i + 1) _ (h.capped hy)).mono (fun _ h => ⟨h.1, hsame ▸ h.2⟩)
          fun _ h => h.imp_right fun hlt => by omega
    · exact ⟨hx, Or.inr le_rfl⟩

/-- Backward a cut goes on with the later one of the two parts. -/
theorem backwardLoop (h : p.Visiting f minWidth cap I E) (hx : I x) (fuel : ℕ)
    (hi : E ∨ i ≤ x.sliceCount) (found : Bool) :
    Settles (p.backwardLoop f minWidth fuel i found x) (fun r => I r.1)
      (fun _ => E ∨ fuel + 2 * x.sliceCount < 2 * cap + i) := by
  have hcap := h.capped hx
  induction fuel generalizing i found x with
  | zero =>
    cases i with
    | zero => exact hx
    | succ k => exact Or.inr (by omega)
  | succ fuel ih =>
    cases i with
    | zero => exact hx
    | succ k =>
      unfold Picard.backwardLoop
      split_ifs with hk
      · refine ((h.visit hx hk false).mono (fun _ h => h) fun _ => Or.inl).bind fun r hr => ?_
        obtain ⟨hy, hsame⟩ := hr
        dsimp only
        split_ifs with hsplit
        · rw [Bool.and_eq_true] at hsplit
          obtain ⟨hz, hcount⟩ := h.cut hy (hsame ▸ hk) hsplit.2
          refine (ih hz ?_ found (h.capped hz)).mono (fun _ h => h) fun _ h => ?_
          · exact hcount.imp_right fun hcount => by omega
          · rcases hcount with hE | hcount
            · exact Or.inl hE
            · exact h.imp_right fun hlt => by omega
        · exact (ih hy (hi.imp_right fun hi => by omega) _ (h.capped hy)).mono (fun _ h => h)
            fun _ h => h.imp_right fun hlt => by omega
      · exact Or.inl (hi.resolve_right hk)

/-- A step with enough visits fails with the excuse only. -/
theorem contract (h : p.Visiting f (x.domain.diam * minSliceFraction) cap I E) (hx : I x)
    (fuel : ℕ) (direction : Direction) :
    Settles (p.contract fuel f direction x) (fun r => I r.1)
      (fun _ => E ∨ fuel + x.sliceCount < 2 * cap) := by
  rw [contract_eq]
  refine Settles.bind (P := fun r => I r.1 ∧ (E ∨ x.sliceCount ≤ r.1.sliceCount)) ?_ fun r hr => ?_
  · split_ifs
    · exact (h.forwardLoop hx fuel 0 false).mono (fun _ h => h) fun _ h => h
    · exact ⟨hx, Or.inr le_rfl⟩
  · split_ifs
    · refine (h.backwardLoop hr.1 fuel (Or.inr le_rfl) r.2).mono (fun _ h => h) fun _ h => ?_
      rcases hr.2 with hE | hle
      · exact Or.inl hE
      · exact h.imp_right fun hlt => by omega
    · exact hr.1

end Visiting

end FlowTube.Picard
