/-
# `Omr.Powers` — powers, polynomials and products of ciphertexts

The detector applies a polynomial of high degree to a ciphertext with few
multiplications in depth.  `calUptoDegreeK` fills a table of powers by repeated
squaring, with every power found on the way kept; Paterson and Stockmeyer's
scheme combines the small powers with those of the last one; `EvalMultMany`
multiplies many ciphertexts as a tree.
-/
import PSVFSS.Omr.Seal

namespace PSVFSS.Omr

open Loop

variable {Ct : Type}

/-! ## The table of powers

The invariant is that what the table holds is right.  That it ends up complete
follows from the exponent of the inner loop, which goes down to zero. -/

/-- What the loops share: power `d` in `output (d - 1)` once it is calculated,
and the register `res`, which nothing is in at first. -/
structure Powers (Ct : Type) where
  output : ℕ → Option Ct
  res : Option Ct

def Powers.store (s : Powers Ct) (d : ℕ) (c : Ct) : Powers Ct :=
  { s with output := Function.update s.output (d - 1) (some c) }

/-- The inner loop of `calUptoDegreeK`: what is left of the exponent, the
degrees of `res` and `base`, and `base`. -/
def calPower (ev : Evaluator Ct) (toCalculate resdeg basedeg : ℕ) (base : Ct) (s : Powers Ct) :
    Option (Powers Ct) :=
  if toCalculate = 0 then some s
  else if toCalculate % 2 = 1 then
    match s.output (resdeg + basedeg - 1) with
    | some out => calPower ev (toCalculate - 1) (resdeg + basedeg) basedeg base
        { s with res := some out }
    | none =>
      if resdeg + basedeg = basedeg then
        calPower ev (toCalculate - 1) (resdeg + basedeg) basedeg base
          ({ s with res := some base }.store (resdeg + basedeg) base)
      else
        match s.res with
        | some res => calPower ev (toCalculate - 1) (resdeg + basedeg) basedeg base
            ({ s with res := some (ev.multiply res base) }.store (resdeg + basedeg)
              (ev.multiply res base))
        | none => none
  else
    match s.output (basedeg * 2 - 1) with
    | some out => calPower ev (toCalculate / 2) resdeg (basedeg * 2) out s
    | none => calPower ev (toCalculate / 2) resdeg (basedeg * 2) (ev.square base)
        (s.store (basedeg * 2) (ev.square base))
termination_by toCalculate

/-- Degree `i` of the outer loop. -/
def calDegree (ev : Evaluator Ct) (input : Ct) (s : Powers Ct) (i : ℕ) : Option (Powers Ct) :=
  match s.output (i - 1) with
  | none => calPower ev i 0 1 input s
  | some _ => some s

/-- `calUptoDegreeK`: the powers from the first to the one of degree `degreeK`. -/
def calUptoDegreeK (ev : Evaluator Ct) (input : Ct) (degreeK : ℕ) : Option (List Ct) := do
  let s ← (List.range degreeK).foldlM (fun s k => calDegree ev input s (degreeK - k))
    ({ output := fun _ => none, res := none : Powers Ct }.store 1 input)
  (List.range degreeK).mapM s.output

theorem Powers.output_store (s : Powers Ct) (d : ℕ) (c : Ct) (e : ℕ) :
    (s.store d c).output e = if e = d - 1 then some c else s.output e :=
  Function.update_apply ..

section

-- `P d c` reads: the ciphertext `c` is power `d`
variable {ev : Evaluator Ct} {P : ℕ → Ct → Prop}

/-- Everything in the table is the power it stands for. -/
def Powers.Sound (P : ℕ → Ct → Prop) (s : Powers Ct) : Prop :=
  ∀ d c, 1 ≤ d → s.output (d - 1) = some c → P d c

/-- The table keeps what it has. -/
def Powers.Grows (s s' : Powers Ct) : Prop :=
  ∀ d, (s.output d).isSome → (s'.output d).isSome

theorem Powers.Sound.store {s : Powers Ct} (hs : s.Sound P) {d : ℕ} {c : Ct} (hd : 1 ≤ d)
    (hc : P d c) : (s.store d c).Sound P := by
  intro e c' he hout
  rw [Powers.output_store] at hout
  split at hout
  next heq =>
    have hed : e = d := by omega
    rw [hed, ← Option.some.inj hout]
    exact hc
  next => exact hs e c' he hout

theorem Powers.grows_refl (s : Powers Ct) : s.Grows s := fun _ h => h

theorem Powers.grows_store (s : Powers Ct) (d : ℕ) (c : Ct) : s.Grows (s.store d c) := by
  intro e he
  rw [Powers.output_store]
  split
  · rfl
  · exact he

theorem Powers.stored (s : Powers Ct) (d : ℕ) (c : Ct) :
    ((s.store d c).output (d - 1)).isSome := by
  rw [Powers.output_store, if_pos rfl]
  rfl

theorem Powers.Grows.trans {s t u : Powers Ct} (h : s.Grows t) (h' : t.Grows u) : s.Grows u :=
  fun d hd => h' d (h d hd)

variable (hmul : ∀ a b c d, P a c → P b d → P (a + b) (ev.multiply c d))
  (hsq : ∀ a c, P a c → P (a * 2) (ev.square c))
include hmul hsq

/-- The inner loop keeps `resdeg + basedeg * toCalculate`, so it ends with that
power calculated. -/
theorem calPower_spec (toCalculate : ℕ) :
    ∀ {resdeg basedeg : ℕ} {base : Ct} {s : Powers Ct}, 1 ≤ basedeg → P basedeg base →
      s.Sound P → (s.output (basedeg - 1)).isSome →
      (resdeg ≠ 0 → (s.output (resdeg - 1)).isSome ∧ ∃ res, s.res = some res ∧ P resdeg res) →
      resdeg + basedeg * toCalculate ≠ 0 →
      ∃ s', calPower ev toCalculate resdeg basedeg base s = some s' ∧ s'.Sound P ∧ s.Grows s' ∧
        (s'.output (resdeg + basedeg * toCalculate - 1)).isSome := by
  induction toCalculate using Nat.strong_induction_on with
  | _ toCalculate ih =>
    intro resdeg basedeg base s hpos hbase hs hhave hres hne
    rw [calPower]
    by_cases hzero : toCalculate = 0
    · rw [if_pos hzero]
      rw [hzero, Nat.mul_zero, Nat.add_zero] at hne ⊢
      exact ⟨s, rfl, hs, s.grows_refl, (hres hne).1⟩
    rw [if_neg hzero]
    by_cases hodd : toCalculate % 2 = 1
    · -- one more factor `base` in the result
      have hexp : resdeg + basedeg * toCalculate
          = resdeg + basedeg + basedeg * (toCalculate - 1) := by
        obtain ⟨k, rfl⟩ := Nat.exists_eq_succ_of_ne_zero hzero
        rw [Nat.succ_sub_one, Nat.mul_succ]
        omega
      have hsum : 1 ≤ resdeg + basedeg := by omega
      have hstep : ∀ s₁ : Powers Ct, s₁.Sound P → s.Grows s₁ →
          (s₁.output (resdeg + basedeg - 1)).isSome →
          (∃ res, s₁.res = some res ∧ P (resdeg + basedeg) res) →
          ∃ s', calPower ev (toCalculate - 1) (resdeg + basedeg) basedeg base s₁ = some s'
            ∧ s'.Sound P ∧ s.Grows s'
            ∧ (s'.output (resdeg + basedeg * toCalculate - 1)).isSome := by
        intro s₁ hs₁ hgrow hout hres₁
        obtain ⟨s', hcal, hs', hgrow', hlast⟩ := ih (toCalculate - 1) (by omega) hpos hbase hs₁
          (hgrow _ hhave) (fun _ => ⟨hout, hres₁⟩) (by omega)
        exact ⟨s', hcal, hs', hgrow.trans hgrow', hexp ▸ hlast⟩
      rw [if_pos hodd]
      cases hout : s.output (resdeg + basedeg - 1) with
      | some out =>
        exact hstep { s with res := some out } hs s.grows_refl (by simp [hout])
          ⟨out, rfl, hs _ _ hsum hout⟩
      | none =>
        have hrne : resdeg ≠ 0 := by
          intro hr
          rw [hr, Nat.zero_add] at hout
          rw [hout] at hhave
          exact absurd hhave Bool.false_ne_true
        obtain ⟨-, res, hreseq, hresP⟩ := hres hrne
        have hP : P (resdeg + basedeg) (ev.multiply res base) := hmul _ _ _ _ hresP hbase
        have hlt : ¬ resdeg + basedeg = basedeg := by omega
        simp only [if_neg hlt, hreseq]
        exact hstep _ (Powers.Sound.store (s := { s with res := _ }) hs hsum hP)
          (Powers.grows_store { s with res := _ } _ _) (Powers.stored _ _ _) ⟨_, rfl, hP⟩
    · -- the base is squared
      have hexp : resdeg + basedeg * toCalculate
          = resdeg + basedeg * 2 * (toCalculate / 2) := by
        rw [Nat.mul_assoc, Nat.mul_div_cancel' (Nat.dvd_of_mod_eq_zero (by omega))]
      have hdouble : 1 ≤ basedeg * 2 := by omega
      have hstep : ∀ (s₁ : Powers Ct) (base₁ : Ct), s₁.Sound P → s.Grows s₁ →
          (s₁.output (basedeg * 2 - 1)).isSome → P (basedeg * 2) base₁ → s₁.res = s.res →
          ∃ s', calPower ev (toCalculate / 2) resdeg (basedeg * 2) base₁ s₁ = some s'
            ∧ s'.Sound P ∧ s.Grows s'
            ∧ (s'.output (resdeg + basedeg * toCalculate - 1)).isSome := by
        intro s₁ base₁ hs₁ hgrow hout hP hreseq
        obtain ⟨s', hcal, hs', hgrow', hlast⟩ := ih (toCalculate / 2) (by omega) hdouble hP hs₁
          hout (fun hr => ⟨hgrow _ (hres hr).1, hreseq ▸ (hres hr).2⟩) (by omega)
        exact ⟨s', hcal, hs', hgrow.trans hgrow', hexp ▸ hlast⟩
      rw [if_neg hodd]
      cases hout : s.output (basedeg * 2 - 1) with
      | some out =>
        exact hstep s out hs s.grows_refl (by simp [hout]) (hs _ _ hdouble hout) rfl
      | none =>
        exact hstep _ _ (hs.store hdouble (hsq _ _ hbase)) (s.grows_store _ _) (s.stored _ _)
          (hsq _ _ hbase) rfl

/-- Every power up to `degreeK` is there and is the power it stands for. -/
theorem calUptoDegreeK_spec {input : Ct} (hinput : P 1 input) {degreeK : ℕ} :
    ∃ outs, calUptoDegreeK ev input degreeK = some outs ∧ outs.length = degreeK
      ∧ ∀ d (hd : d < outs.length), P (d + 1) outs[d] := by
  have hempty : Powers.Sound P { output := fun _ => none, res := none } :=
    fun d c _ hout => absurd hout (by simp)
  have hstep : ∀ k < degreeK, ∀ s : Powers Ct,
      (s.Sound P ∧ (s.output 0).isSome
        ∧ ∀ i, degreeK - k < i → i ≤ degreeK → (s.output (i - 1)).isSome) →
      ∃ s', calDegree ev input s (degreeK - k) = some s' ∧ s'.Sound P ∧ (s'.output 0).isSome
        ∧ ∀ i, degreeK - (k + 1) < i → i ≤ degreeK → (s'.output (i - 1)).isSome := by
    rintro k hk s ⟨hs, hhave, hall⟩
    have hmore : ∀ s' : Powers Ct, s.Grows s' → (s'.output (degreeK - k - 1)).isSome →
        ∀ i, degreeK - (k + 1) < i → i ≤ degreeK → (s'.output (i - 1)).isSome := by
      intro s' hgrow hnew i hi hi'
      rcases (by omega : i = degreeK - k ∨ degreeK - k < i) with rfl | hlt
      · exact hnew
      · exact hgrow _ (hall i hlt hi')
    rw [calDegree]
    cases hout : s.output (degreeK - k - 1) with
    | some out =>
      exact ⟨s, rfl, hs, hhave, hmore s s.grows_refl (by simp [hout])⟩
    | none =>
      obtain ⟨s', hcal, hs', hgrow, hlast⟩ := calPower_spec hmul hsq (degreeK - k) le_rfl hinput
        hs hhave (fun h => absurd rfl h) (by omega)
      rw [Nat.zero_add, Nat.one_mul] at hlast
      exact ⟨s', hcal, hs', hgrow _ hhave, hmore s' hgrow hlast⟩
  obtain ⟨s, hfold, hs, -, hall⟩ := foldlM_range ⟨hempty.store le_rfl hinput,
    Powers.stored _ 1 input, fun i hi hi' => absurd hi' (by omega)⟩ hstep
  have hget : ∀ d ∈ List.range degreeK, s.output d = some ((s.output d).getD input) := by
    intro d hd
    have hd := List.mem_range.mp hd
    obtain ⟨c, hc⟩ := Option.isSome_iff_exists.mp (hall (d + 1) (by omega) (by omega))
    rw [Nat.add_sub_cancel] at hc
    rw [hc]
    rfl
  refine ⟨(List.range degreeK).map fun d => (s.output d).getD input, ?_, by simp, ?_⟩
  · rw [calUptoDegreeK]
    simp only [hfold, Option.bind_eq_bind, Option.bind_some]
    exact mapM_of_forall hget
  · intro d hd
    have hd' : d < degreeK := by simpa using hd
    rw [List.getElem_map, List.getElem_range]
    exact hs (d + 1) _ (by omega) (hget d (List.mem_range.mpr hd'))

end

/-! ## Paterson and Stockmeyer's scheme

Coefficients that are zero are skipped, so that nothing is multiplied with a
plaintext of zeros.  A level of zeros only would leave nothing to multiply. -/

/-- A coefficient of a level; nothing is in `levelSum` before the first one. -/
def addLevel (ev : Evaluator Ct) (degree coef : ℕ) (kCT : Ct) (levelSum : Option Ct) :
    Option (Option Ct) :=
  if coef ≠ 0 then do
    let temp ← ev.multiplyPlain kCT (List.replicate degree coef)
    match levelSum with
    | none => some (some temp)
    | some levelSum => some (some (ev.add levelSum temp))
  else some levelSum

/-- The level whose coefficients start at `k`. -/
def level (ev : Evaluator Ct) (degree : ℕ) (table : ℕ → ℕ) (k : ℕ) :
    List Ct → Option Ct → Option (Option Ct)
  | [], levelSum => some levelSum
  | kCT :: kCTs, levelSum => do
    let levelSum ← addLevel ev degree (table k) kCT levelSum
    level ev degree table (k + 1) kCTs levelSum

/-- Level `i`, times its power, on top of what there is.  A level without a
coefficient is an empty ciphertext, which the library refuses. -/
def addRow (ev : Evaluator Ct) (degree m : ℕ) (table : ℕ → ℕ) (kCTs kToMCTs : List Ct)
    (ciphertext : Option Ct) (i : ℕ) : Option (Option Ct) := do
  let levelSum ← level ev degree table (i * m) kCTs none
  let levelSum ← levelSum
  if i = 0 then some (some levelSum)
  else
    let kToM ← kToMCTs[i - 1]?
    let ciphertext ← ciphertext
    some (some (ev.add ciphertext (ev.multiply levelSum kToM)))

/-- `RangeCheck_PatersonStockmeyer` with `m` coefficients in each of `m` levels. -/
def patersonStockmeyer (ev : Evaluator Ct) (degree m : ℕ) (table : ℕ → ℕ) (input : Ct) :
    Option Ct := do
  let kCTs ← calUptoDegreeK ev input m
  let last ← kCTs[m - 1]?
  let kToMCTs ← calUptoDegreeK ev last m
  let rows ← (List.range m).foldlM (addRow ev degree m table kCTs kToMCTs) none
  let ciphertext ← rows
  some (ev.addPlain (ev.negate ciphertext) (List.replicate degree 1))

theorem encodable_replicate {half v : ℕ} (hv : v < 65537) :
    Encodable half (List.replicate (2 * half) v) :=
  ⟨by rw [List.length_replicate], fun w hw => by rwa [List.eq_of_mem_replicate hw]⟩

theorem plain_replicate {degree i : ℕ} (hi : i < degree) (v : ℕ) :
    plain (List.replicate degree v) i = v := by
  rw [plain, List.getD_eq_getElem?_getD, List.getElem?_replicate, if_pos hi]
  rfl

section

variable {ev : Evaluator Ct} {half : ℕ} (h : ev.Lawful half)
include h

/-- The powers of a ciphertext, slot by slot. -/
theorem calUptoDegreeK_slot (input : Ct) (degreeK : ℕ) :
    ∃ outs, calUptoDegreeK ev input degreeK = some outs ∧ outs.length = degreeK
      ∧ ∀ d (hd : d < outs.length), ∀ i < 2 * half,
        ev.slot outs[d] i = ev.slot input i ^ (d + 1) := by
  refine calUptoDegreeK_spec
    (P := fun d c => ∀ i < 2 * half, ev.slot c i = ev.slot input i ^ d) ?_ ?_ ?_
  · intro a b c d hc hd i hi
    rw [h.multiply _ _ i hi, hc i hi, hd i hi, pow_add]
  · intro a c hc i hi
    rw [h.square _ i hi, hc i hi, pow_mul]
  · intro i _
    rw [pow_one]

/-- What a register holds in a slot, nothing being zero. -/
def held (ev : Evaluator Ct) (s : Option Ct) (i : ℕ) : Slot := s.elim 0 fun c => ev.slot c i

theorem addLevel_spec {coef : ℕ} (hcoef : coef < 65537) (kCT : Ct) (s : Option Ct) :
    ∃ s', addLevel ev (2 * half) coef kCT s = some s' ∧ (s.isSome ∨ coef ≠ 0 → s'.isSome)
      ∧ ∀ i < 2 * half, held ev s' i = held ev s i + coef * ev.slot kCT i := by
  unfold addLevel
  by_cases hzero : coef = 0
  · refine ⟨s, if_neg (not_not.mpr hzero), fun hs => hs.resolve_right (not_not.mpr hzero),
      fun i _ => ?_⟩
    rw [hzero, Nat.cast_zero, zero_mul, add_zero]
  · have hdeg : 2 * half ≠ 0 := Nat.ne_of_gt (Nat.mul_pos Nat.two_pos h.half_pos)
    have hcoefs : ¬ Zeros (List.replicate (2 * half) coef) := fun hzeros =>
      hzero (hzeros coef (List.mem_replicate.mpr ⟨hdeg, rfl⟩))
    obtain ⟨temp, htemp, hslot⟩ := h.multiplyPlain kCT _ (encodable_replicate hcoef) hcoefs
    have hprod : ∀ i < 2 * half, ev.slot temp i = coef * ev.slot kCT i := fun i hi => by
      rw [hslot i hi, plain_replicate hi, mul_comm]
    rw [if_pos hzero, htemp]
    cases s with
    | none =>
      exact ⟨some temp, rfl, fun _ => rfl, fun i hi => (hprod i hi).trans (zero_add _).symm⟩
    | some c =>
      exact ⟨some (ev.add c temp), rfl, fun _ => rfl,
        fun i hi => (h.add _ _ i hi).trans (congrArg _ (hprod i hi))⟩

/-- A level with a coefficient is there. -/
theorem level_spec {table : ℕ → ℕ} (htable : ∀ k, table k < 65537) (kCTs : List Ct) :
    ∀ (k : ℕ) (s : Option Ct), ∃ s', level ev (2 * half) table k kCTs s = some s'
      ∧ (s.isSome ∨ (∃ j < kCTs.length, table (k + j) ≠ 0) → s'.isSome)
      ∧ ∀ i < 2 * half, ∀ v : ℕ → Slot, (∀ j (hj : j < kCTs.length), ev.slot kCTs[j] i = v j) →
        held ev s' i = held ev s i + ∑ j ∈ Finset.range kCTs.length, table (k + j) * v j := by
  induction kCTs with
  | nil =>
    refine fun k s => ⟨s, rfl, ?_, fun i _ v _ => (add_zero _).symm⟩
    rintro (hs | ⟨j, hj, -⟩)
    · exact hs
    · exact absurd hj (Nat.not_lt_zero j)
  | cons kCT kCTs ih =>
    intro k s
    obtain ⟨s₁, hs₁, hsome₁, hheld₁⟩ := addLevel_spec h (htable k) kCT s
    obtain ⟨s', hs', hsome', hheld'⟩ := ih (k + 1) s₁
    refine ⟨s', by rw [level, hs₁]; exact hs', fun hs => hsome' ?_, fun i hi v hv => ?_⟩
    · rcases hs with hs | ⟨_ | j, hj, hjk⟩
      · exact .inl (hsome₁ (.inl hs))
      · exact .inl (hsome₁ (.inr hjk))
      · exact .inr ⟨j, Nat.lt_of_succ_lt_succ hj, by rwa [Nat.add_right_comm, Nat.add_assoc]⟩
    · have hhead : ev.slot kCT i = v 0 := hv 0 (Nat.succ_pos _)
      rw [hheld' i hi (fun j => v (j + 1)) fun j hj => hv (j + 1) (Nat.succ_lt_succ hj),
        hheld₁ i hi, hhead, add_assoc, List.length_cons, Finset.sum_range_succ',
        add_comm (table k * v 0 : Slot)]
      refine congrArg _ (congrArg₂ _ (Finset.sum_congr rfl fun j _ => ?_) rfl)
      rw [Nat.add_right_comm, Nat.add_assoc]

/-- The scheme computes `1 - Σ table k * x ^ (k + 1)` in every slot, when no
level is empty. -/
theorem patersonStockmeyer_spec {table : ℕ → ℕ} (htable : ∀ k, table k < 65537) {m : ℕ}
    (hrows : ∀ i < m, ∃ j < m, table (i * m + j) ≠ 0) (hm : 0 < m) (input : Ct) :
    ∃ c, patersonStockmeyer ev (2 * half) m table input = some c ∧ ∀ i < 2 * half,
      ev.slot c i = 1 - ∑ k ∈ Finset.range (m * m), table k * ev.slot input i ^ (k + 1) := by
  obtain ⟨kCTs, hk, hklen, hkslot⟩ := calUptoDegreeK_slot h input m
  have hlast : kCTs[m - 1]? = some kCTs[m - 1] := List.getElem?_eq_getElem (by omega)
  obtain ⟨kToMCTs, hM, hMlen, hMslot⟩ := calUptoDegreeK_slot h kCTs[m - 1] m
  have hrow : ∀ r < m, ∃ c, level ev (2 * half) table (r * m) kCTs none = some (some c) ∧
      ∀ i < 2 * half, ev.slot c i
        = ∑ j ∈ Finset.range m, table (r * m + j) * ev.slot input i ^ (j + 1) := by
    intro r hr
    have hne : ∃ j < kCTs.length, table (r * m + j) ≠ 0 := by
      rw [hklen]
      exact hrows r hr
    obtain ⟨s, hs, hsome, hheld⟩ := level_spec h htable kCTs (r * m) none
    obtain ⟨c, rfl⟩ := Option.isSome_iff_exists.mp (hsome (.inr hne))
    refine ⟨c, hs, fun i hi => ?_⟩
    have hslot := hheld i hi (fun j => ev.slot input i ^ (j + 1)) fun j hj => hkslot j hj i hi
    rw [hklen] at hslot
    exact hslot.trans (zero_add _)
  have hstep : ∀ r < m, ∀ s : Option Ct,
      ((s.isSome ∨ r = 0) ∧ ∀ i < 2 * half, held ev s i
        = ∑ k ∈ Finset.range (r * m), table k * ev.slot input i ^ (k + 1)) →
      ∃ s', addRow ev (2 * half) m table kCTs kToMCTs s r = some s' ∧ (s'.isSome ∨ r + 1 = 0)
        ∧ ∀ i < 2 * half, held ev s' i
          = ∑ k ∈ Finset.range ((r + 1) * m), table k * ev.slot input i ^ (k + 1) := by
    rintro r hr s ⟨hsome, hs⟩
    obtain ⟨c, hc, hcslot⟩ := hrow r hr
    have hsum : ∀ i, ∑ k ∈ Finset.range ((r + 1) * m), table k * ev.slot input i ^ (k + 1)
        = ∑ k ∈ Finset.range (r * m), table k * ev.slot input i ^ (k + 1)
          + (∑ j ∈ Finset.range m, table (r * m + j) * ev.slot input i ^ (j + 1))
            * (ev.slot input i ^ m) ^ r := by
      intro i
      rw [Nat.succ_mul, Finset.sum_range_add, Finset.sum_mul]
      refine congrArg _ (Finset.sum_congr rfl fun j _ => ?_)
      ring
    cases r with
    | zero =>
      refine ⟨some c, by rw [addRow, hc]; rfl, .inl rfl, fun i hi => ?_⟩
      rw [hsum, pow_zero, mul_one, Nat.zero_mul, Finset.range_zero, Finset.sum_empty, zero_add]
      have := hcslot i hi
      rw [Nat.zero_mul] at this
      exact this
    | succ r =>
      obtain ⟨acc, rfl⟩ := Option.isSome_iff_exists.mp
        (hsome.resolve_right (Nat.succ_ne_zero r))
      have hfactor : kToMCTs[r]? = some kToMCTs[r] := List.getElem?_eq_getElem (by omega)
      refine ⟨some (ev.add acc (ev.multiply c kToMCTs[r])), by simp [addRow, hc, hfactor],
        .inl rfl, fun i hi => ?_⟩
      have hacc : ev.slot acc i = _ := hs i hi
      rw [hsum, held, Option.elim_some, h.add _ _ i hi, h.multiply _ _ i hi, hcslot i hi, hacc,
        hMslot r (by omega) i hi, hkslot (m - 1) (by omega) i hi, Nat.sub_add_cancel hm]
  obtain ⟨s, hfold, hsome, hs⟩ := foldlM_range (s := none)
    (P := fun r (s : Option Ct) => (s.isSome ∨ r = 0) ∧ ∀ i < 2 * half, held ev s i
        = ∑ k ∈ Finset.range (r * m), table k * ev.slot input i ^ (k + 1))
    ⟨.inr rfl, fun i _ => by rw [Nat.zero_mul]; rfl⟩ hstep
  obtain ⟨c, rfl⟩ := Option.isSome_iff_exists.mp (hsome.resolve_right (Nat.ne_of_gt hm))
  refine ⟨ev.addPlain (ev.negate c) (List.replicate (2 * half) 1), ?_, fun i hi => ?_⟩
  · rw [patersonStockmeyer]
    simp only [hk, hlast, hM, hfold, Option.bind_eq_bind, Option.bind_some]
  · have hc : ev.slot c i = _ := hs i hi
    rw [h.addPlain _ _ (encodable_replicate (by decide)) i hi, h.negate _ i hi,
      plain_replicate hi, hc, Nat.cast_one, neg_add_eq_sub]

end

/-! ## Products

Halves are multiplied with each other until one ciphertext is left.  The order
differs from round to round, the product does not. -/

/-- One round of `EvalMultMany_inpace`: the first half times the second, and the
last one as it is when it has no partner. -/
def multRound (ev : Evaluator Ct) (ciphertexts : List Ct) : List Ct :=
  List.zipWith ev.multiply (ciphertexts.take (ciphertexts.length / 2))
      (ciphertexts.drop (ciphertexts.length / 2))
    ++ if ciphertexts.length % 2 = 1 then ciphertexts.drop (ciphertexts.length - 1) else []

theorem length_multRound (ev : Evaluator Ct) (ciphertexts : List Ct) :
    (multRound ev ciphertexts).length = (ciphertexts.length + 1) / 2 := by
  rw [multRound, List.length_append, List.length_zipWith, List.length_take, List.length_drop]
  split
  · rw [List.length_drop]
    omega
  · rw [List.length_nil]
    omega

/-- `EvalMultMany_inpace`, which on an empty vector never ends. -/
def evalMultMany (ev : Evaluator Ct) (ciphertexts : List Ct) : Option Ct :=
  match ciphertexts with
  | [] => none
  | [c] => some c
  | c :: d :: rest => evalMultMany ev (multRound ev (c :: d :: rest))
termination_by ciphertexts.length
decreasing_by
  rw [length_multRound]
  simp only [List.length_cons]
  omega

section

variable {ev : Evaluator Ct} {half : ℕ} (h : ev.Lawful half)
include h

theorem prod_zipWith {i : ℕ} (hi : i < 2 * half) (as : List Ct) : ∀ bs : List Ct,
    as.length ≤ bs.length → ((List.zipWith ev.multiply as bs).map (ev.slot · i)).prod
      = (as.map (ev.slot · i)).prod * ((bs.take as.length).map (ev.slot · i)).prod := by
  induction as with
  | nil =>
    intro bs _
    simp
  | cons a as ih =>
    intro bs hlen
    cases bs with
    | nil => exact absurd hlen (Nat.not_succ_le_zero _)
    | cons b bs =>
      simp only [List.zipWith_cons_cons, List.map_cons, List.prod_cons, List.length_cons,
        List.take_succ_cons]
      rw [ih bs (Nat.le_of_succ_le_succ hlen), h.multiply _ _ i hi, mul_mul_mul_comm]

/-- A round keeps the product. -/
theorem prod_multRound {i : ℕ} (hi : i < 2 * half) (ciphertexts : List Ct) :
    ((multRound ev ciphertexts).map (ev.slot · i)).prod
      = (ciphertexts.map (ev.slot · i)).prod := by
  have htail : (if ciphertexts.length % 2 = 1 then ciphertexts.drop (ciphertexts.length - 1)
      else []) = (ciphertexts.drop (ciphertexts.length / 2)).drop (ciphertexts.length / 2) := by
    rw [List.drop_drop]
    split
    next hodd =>
      have hlast : ciphertexts.length / 2 + ciphertexts.length / 2 = ciphertexts.length - 1 := by
        omega
      rw [hlast]
    next => rw [List.drop_of_length_le (by omega)]
  have hlen : (ciphertexts.take (ciphertexts.length / 2)).length = ciphertexts.length / 2 := by
    rw [List.length_take]
    omega
  rw [multRound, htail, List.map_append, List.prod_append,
    prod_zipWith h hi _ _ (by rw [hlen, List.length_drop]; omega), hlen, mul_assoc,
    ← List.prod_append, ← List.map_append, List.take_append_drop, ← List.prod_append,
    ← List.map_append, List.take_append_drop]

/-- `EvalMultMany_inpace` multiplies all the ciphertexts, however many. -/
theorem evalMultMany_spec : ∀ (n : ℕ) (ciphertexts : List Ct), ciphertexts.length = n → n ≠ 0 →
    ∃ c, evalMultMany ev ciphertexts = some c ∧ ∀ i < 2 * half,
      ev.slot c i = (ciphertexts.map (ev.slot · i)).prod := by
  intro n
  induction n using Nat.strong_induction_on with
  | _ n ih =>
    intro ciphertexts hlen hne
    match ciphertexts, hlen with
    | [], hlen => exact absurd hlen.symm hne
    | [c], _ => exact ⟨c, by rw [evalMultMany], fun i _ => (List.prod_singleton).symm⟩
    | c :: d :: rest, hlen =>
      have hround := length_multRound ev (c :: d :: rest)
      rw [hlen] at hround
      have hlen' : rest.length + 2 = n := hlen
      obtain ⟨out, hout, hslot⟩ := ih ((n + 1) / 2) (by omega) _ hround (by omega)
      refine ⟨out, by rw [evalMultMany]; exact hout, fun i hi => ?_⟩
      rw [hslot i hi, prod_multRound h hi]

end

end PSVFSS.Omr
