import StepSampling.Density.Basic
import StepSampling.Proofs.Binary.Nonnegative

/-!
# Running sums

A density is built from the running sums of its weights, each divided by their number.  The sums start
at zero and never decrease, a weight of zero repeats the sum before it, and the last sum is the
integral.  All of this is carried from one sum to the next by two facts about a single step, `le_add`
and `add_of_value_zero`.
-/

namespace StepSampling

/-! ## Accepted weights -/

theorem Single.isWeight_iff (w : Single) :
    w.isWeight = true ↔ w.isFinite = true ∧ Binary.zero ≤ w := by
  rw [Single.isWeight, Bool.and_eq_true, decide_eq_true_iff]

theorem checkWeights_eq_ok_iff (weights : List Single) :
    checkWeights weights = .ok () ↔ weights ≠ [] ∧ ∀ w ∈ weights, w.isWeight = true := by
  unfold checkWeights
  split
  · next hNil => simp [hNil]
  · next hNonempty =>
    split
    · next i hFound =>
      rw [List.findIdx?_eq_some_iff_getElem] at hFound
      obtain ⟨hIndex, hBad, _⟩ := hFound
      constructor
      · intro hOk
        cases hOk
      · rintro ⟨_, hAll⟩
        rw [hAll _ (List.getElem_mem hIndex)] at hBad
        cases hBad
    · next hNone =>
      rw [List.findIdx?_eq_none_iff] at hNone
      constructor
      · intro _
        refine ⟨hNonempty, fun w hMem => ?_⟩
        simpa using hNone w hMem
      · intro _
        rfl

namespace StepDensity

/-- The running sums that `build` normalises. -/
def sums (weights : List Single) : List Single :=
  runningSums (Binary.ofNat .single weights.length) Binary.zero weights

/-- What it means that a density has been built. -/
theorem build_eq_ok {weights : List Single} {d : StepDensity} (hBuild : build weights = .ok d) :
    weights ≠ [] ∧ (∀ w ∈ weights, w.isWeight = true) ∧ d.weights = weights.toArray ∧
      d.integral = (sums weights).getLastD Binary.zero ∧ d.integral.isFinite = true ∧
      d.cdf = (if d.integral.isZero then uniformCdf weights.length
        else normalisedCdf weights (sums weights) d.integral).toArray := by
  unfold build at hBuild
  split at hBuild
  · cases hBuild
  · next hCheck =>
    obtain ⟨hNonempty, hWeights⟩ := (checkWeights_eq_ok_iff weights).mp hCheck
    dsimp only at hBuild
    split at hBuild
    · cases hBuild
    · next hFinite =>
      cases hBuild
      refine ⟨hNonempty, hWeights, rfl, rfl, ?_, rfl⟩
      simpa [sums] using hFinite

theorem length_pos_of_build {weights : List Single} {d : StepDensity}
    (hBuild : build weights = .ok d) : 1 ≤ weights.length :=
  List.length_pos_iff.mpr (build_eq_ok hBuild).1

/-- The weights of a density are the ones that it was built from. -/
theorem mem_of_getElem?_weights {weights : List Single} {d : StepDensity}
    (hBuild : build weights = .ok d) {k : Nat} {w : Single} (hWeight : d.weights[k]? = some w) :
    w ∈ weights := by
  obtain ⟨_, _, hKept, _, _, _⟩ := build_eq_ok hBuild
  rw [hKept, List.getElem?_toArray] at hWeight
  exact List.mem_of_getElem? hWeight

/-- Weights that pass their check are refused for one reason only. -/
theorem build_eq_error {weights : List Single} {r : Refusal}
    (hCheck : checkWeights weights = .ok ()) (hBuild : build weights = .error r) :
    r = .overflow weights.length := by
  rw [build, hCheck] at hBuild
  dsimp only at hBuild
  split at hBuild
  · cases hBuild
    rfl
  · cases hBuild

/-! ## Shares -/

section

variable {n : Single}

/-- The share that a weight adds to the sums is the exact quotient, rounded. -/
theorem share_rounds (hFinite : n.isFinite = true) (hOne : 1 ≤ n.value) {w : Single}
    (hWeight : w.isWeight = true) :
    0 ≤ w.value / n.value ∧ (w / n).Rounds (w.value / n.value) := by
  obtain ⟨hw, hNonneg⟩ := w.isWeight_iff.mp hWeight
  exact ⟨div_nonneg (Binary.value_nonneg_of_le hNonneg) (by linarith),
    Binary.div_rounds w n hw hFinite (by linarith)⟩

theorem share_nonneg (hFinite : n.isFinite = true) (hOne : 1 ≤ n.value) {w : Single}
    (hWeight : w.isWeight = true) : Binary.zero ≤ w / n ∧ (w / n).isFinite = true := by
  obtain ⟨hw, hNonneg⟩ := w.isWeight_iff.mp hWeight
  have hValue := Binary.value_nonneg_of_le hNonneg
  obtain ⟨hQuotient, hShare⟩ := share_rounds hFinite hOne hWeight
  have hLow : Binary.zero ≤ w / n := Binary.zero_le_iff.mpr ⟨hShare.1, hShare.value_nonneg hQuotient⟩
  have hHigh : w / n ≤ w := by
    refine Binary.le_iff_value.mpr ⟨hShare.1, hNonneg.2.1, hShare.value_le hNonneg.2.1 ?_⟩
    exact div_le_self hValue hOne
  exact ⟨hLow, Binary.isFinite_of_le hLow hHigh hw⟩

/-! ## The sums -/

theorem length_runningSums (n c : Single) (weights : List Single) :
    (runningSums n c weights).length = weights.length + 1 := by
  induction weights generalizing c with
  | nil => rfl
  | cons w rest ih =>
      rw [runningSums, List.length_cons, ih, List.length_cons]

theorem runningSums_zero (n c : Single) (weights : List Single) :
    (runningSums n c weights)[0]? = some c := by
  cases weights <;> rfl

/-- Each sum is the one before it plus the share of the weight between them. -/
theorem runningSums_succ (n c : Single) (weights : List Single) {i : Nat} {a w : Single}
    (hSum : (runningSums n c weights)[i]? = some a) (hWeight : weights[i]? = some w) :
    (runningSums n c weights)[i + 1]? = some (a + w / n) := by
  induction weights generalizing c i with
  | nil => simp at hWeight
  | cons v rest ih =>
      cases i with
      | zero =>
          rw [runningSums_zero] at hSum
          cases hSum
          simp only [List.getElem?_cons_zero] at hWeight
          cases hWeight
          rw [runningSums, List.getElem?_cons_succ, runningSums_zero]
      | succ i =>
          rw [runningSums, List.getElem?_cons_succ] at hSum
          rw [List.getElem?_cons_succ] at hWeight
          rw [runningSums, List.getElem?_cons_succ]
          exact ih _ hSum hWeight

theorem length_sums (weights : List Single) : (sums weights).length = weights.length + 1 :=
  length_runningSums _ _ _

theorem exists_sum {weights : List Single} {i : Nat} (hIndex : i ≤ weights.length) :
    ∃ s, (sums weights)[i]? = some s := by
  have hLength := length_sums weights
  exact ⟨_, List.getElem?_eq_getElem (by omega)⟩

theorem index_le_of_sum {weights : List Single} {i : Nat} {s : Single}
    (hSum : (sums weights)[i]? = some s) : i ≤ weights.length := by
  obtain ⟨hIndex, _⟩ := List.getElem?_eq_some_iff.mp hSum
  have hLength := length_sums weights
  omega

theorem sums_zero (weights : List Single) : (sums weights)[0]? = some Binary.zero :=
  runningSums_zero _ _ _

theorem sums_succ {weights : List Single} {i : Nat} {s w : Single}
    (hSum : (sums weights)[i]? = some s) (hWeight : weights[i]? = some w) :
    (sums weights)[i + 1]? = some (s + w / Binary.ofNat .single weights.length) :=
  runningSums_succ _ _ weights hSum hWeight

/-- The sums that follow a sum are at least as large, and none has a sign. -/
theorem le_of_mem_runningSums (hFinite : n.isFinite = true) (hOne : 1 ≤ n.value) {c : Single}
    {weights : List Single} (hStart : Binary.zero ≤ c) (hSign : c.negative = false)
    (hWeights : ∀ w ∈ weights, w.isWeight = true) :
    ∀ s ∈ runningSums n c weights, c ≤ s ∧ s.negative = false := by
  induction weights generalizing c with
  | nil =>
      intro s hMem
      rw [runningSums, List.mem_singleton] at hMem
      subst hMem
      exact ⟨Binary.le_refl hStart.2.1, hSign⟩
  | cons w rest ih =>
      intro s hMem
      rw [runningSums, List.mem_cons] at hMem
      rcases hMem with rfl | hMem
      · exact ⟨Binary.le_refl hStart.2.1, hSign⟩
      · obtain ⟨hShare, hShareFinite⟩ :=
          share_nonneg hFinite hOne (hWeights w List.mem_cons_self)
        obtain ⟨hLe, hNext⟩ := Binary.le_add hStart hSign hShare hShareFinite
        obtain ⟨hRest, hRestSign⟩ := ih (Binary.le_trans hStart hLe) hNext
          (fun v hv => hWeights v (List.mem_cons_of_mem w hv)) s hMem
        exact ⟨Binary.le_trans hLe hRest, hRestSign⟩

/-- The sums never decrease. -/
theorem runningSums_sorted (hFinite : n.isFinite = true) (hOne : 1 ≤ n.value) {c : Single}
    {weights : List Single} (hStart : Binary.zero ≤ c) (hSign : c.negative = false)
    (hWeights : ∀ w ∈ weights, w.isWeight = true) :
    (runningSums n c weights).Pairwise (· ≤ ·) := by
  induction weights generalizing c with
  | nil => exact List.pairwise_singleton _ _
  | cons w rest ih =>
      have hRest : ∀ v ∈ rest, v.isWeight = true := fun v hv =>
        hWeights v (List.mem_cons_of_mem w hv)
      obtain ⟨hShare, hShareFinite⟩ := share_nonneg hFinite hOne (hWeights w List.mem_cons_self)
      obtain ⟨hLe, hNext⟩ := Binary.le_add hStart hSign hShare hShareFinite
      have hStep := Binary.le_trans hStart hLe
      rw [runningSums, List.pairwise_cons]
      refine ⟨fun s hMem => ?_, ih hStep hNext hRest⟩
      exact Binary.le_trans hLe (le_of_mem_runningSums hFinite hOne hStep hNext hRest s hMem).1

/-- Weights of zero leave the sums where they are. -/
theorem runningSums_of_zeros (hFinite : n.isFinite = true) (hOne : 1 ≤ n.value) {c : Single}
    {weights : List Single} (hStart : Binary.zero ≤ c) (hSign : c.negative = false)
    (hZeros : ∀ w ∈ weights, w.isZero = true) : ∀ s ∈ runningSums n c weights, s = c := by
  induction weights with
  | nil =>
      intro s hMem
      rwa [runningSums, List.mem_singleton] at hMem
  | cons w rest ih =>
      obtain ⟨hNumber, hValue⟩ := (Binary.isZero_iff w).mp (hZeros w List.mem_cons_self)
      have hw : w.isFinite = true :=
        Binary.isFinite_of_value_le hNumber hValue.ge (by rw [hValue]; norm_num)
      have hShare := Binary.div_rounds w n hw hFinite (by linarith)
      rw [hValue, zero_div] at hShare
      have hNone : (w / n).value = 0 := by
        rw [← Binary.value_zero (F := .single)] at hShare ⊢
        exact hShare.value_eq rfl
      have hAdded : c + w / n = c :=
        Binary.add_of_value_zero hStart hSign (hShare.isFinite le_rfl (by norm_num)) hNone
      intro s hMem
      rw [runningSums, hAdded, List.mem_cons] at hMem
      rcases hMem with rfl | hMem
      · rfl
      · exact ih (fun v hv => hZeros v (List.mem_cons_of_mem w hv)) s hMem

end

end StepDensity

end StepSampling
