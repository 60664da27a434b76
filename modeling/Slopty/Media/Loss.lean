import Slopty.Media.Rate

/-!
The loss of a decision window: where the arithmetic of 32 bits gives what the counters say, and that
more loss then never takes a cut back.
-/

namespace Slopty.Media

open Slopty.Lib
open Slopty.Media.Rate

/-- A quotient is not changed by a bound on what is divided exactly when its largest multiple of the
divisor is within the bound. -/
theorem min_div_eq_iff {a bound whole : Nat} :
    min a bound / whole = a / whole ↔ a / whole * whole ≤ bound := by
  constructor
  · intro h
    calc a / whole * whole = min a bound / whole * whole := by rw [h]
      _ ≤ min a bound := Nat.div_mul_le_self _ _
      _ ≤ bound := Nat.min_le_right _ _
  · intro h
    refine le_antisymm (Nat.div_le_div_right (Nat.min_le_left _ _)) ?_
    rcases Nat.eq_zero_or_pos whole with rfl | hpos
    · rw [Nat.div_zero]
      exact Nat.zero_le _
    · exact (Nat.le_div_iff_mul_le hpos).mpr (le_min (Nat.div_mul_le_self _ _) h)

namespace Rate.Window

/-- What the datagram counters say was lost, per thousand. -/
def trueLoss (w : Window) : Nat := 1000 * w.lost / max w.sent w.lost

/-- What the frame counters say was lost after repair, per thousand. -/
def trueUnrepaired (w : Window) : Nat := 1000 * w.framesLost / (w.framesOk + w.framesLost)

/-- The last multiple of the whole that a thousand times the loss reaches is of 32 bits. -/
def LossFits (w : Window) : Prop := w.trueLoss * max w.sent w.lost < 2 ^ 32

/-- The frames are counted in 32 bits together, and the multiple is of 32 bits; or they are not, and
the quotient is the one the largest number of 32 bits gives. -/
def UnrepairedFits (w : Window) : Prop :=
  let whole := w.framesOk + w.framesLost
  if whole < 2 ^ 32 then w.trueUnrepaired * whole < 2 ^ 32
  else 1000 * w.framesLost < 2 ^ 32 - 1 ∨
    (whole ≤ 1000 * w.framesLost ∧ 1000 * w.framesLost < 2 * whole)

instance (w : Window) : Decidable w.LossFits := inferInstanceAs (Decidable (_ < _))

instance (w : Window) : Decidable w.UnrepairedFits := by
  unfold UnrepairedFits
  infer_instance

theorem lossPermille_eq (w : Window) :
    w.lossPermille = min (1000 * w.lost) (2 ^ 32 - 1) / max w.sent w.lost := by
  have hwhole : (if w.lost < w.sent then w.sent else w.lost) = max w.sent w.lost := by
    split <;> omega
  unfold lossPermille
  dsimp only
  rw [hwhole, satMul, Nat.mul_comm]
  split
  · rename_i hzero
    rw [hzero, Nat.div_zero]
  · rfl

theorem lossPermille_le (w : Window) : w.lossPermille ≤ w.trueLoss := by
  rw [lossPermille_eq]
  exact Nat.div_le_div_right (Nat.min_le_left _ _)

theorem lossPermille_exact (w : Window) : w.lossPermille = w.trueLoss ↔ w.LossFits := by
  rw [lossPermille_eq, trueLoss, min_div_eq_iff]
  exact ⟨fun h => Nat.lt_of_le_pred (by decide) h, Nat.le_pred_of_lt⟩

theorem unrepairedPermille_eq (w : Window) :
    w.unrepairedPermille =
      min (1000 * w.framesLost) (2 ^ 32 - 1) / min (w.framesOk + w.framesLost) (2 ^ 32 - 1) := by
  unfold unrepairedPermille
  dsimp only
  rw [satMul, satAdd, Nat.mul_comm]
  split
  · rename_i hzero
    rw [hzero, Nat.div_zero]
  · rfl

theorem unrepairedPermille_exact (w : Window) :
    w.unrepairedPermille = w.trueUnrepaired ↔ w.UnrepairedFits := by
  rw [unrepairedPermille_eq]
  unfold UnrepairedFits
  dsimp only
  split
  · rename_i hwhole
    have hle : w.framesOk + w.framesLost ≤ 2 ^ 32 - 1 := Nat.le_pred_of_lt hwhole
    rw [Nat.min_eq_left hle, trueUnrepaired, min_div_eq_iff]
    exact ⟨fun h => Nat.lt_of_le_pred (by decide) h, Nat.le_pred_of_lt⟩
  · rename_i hwhole
    have hle : 2 ^ 32 - 1 ≤ w.framesOk + w.framesLost := by omega
    rw [Nat.min_eq_right hle, trueUnrepaired]
    by_cases hsmall : 1000 * w.framesLost < 2 ^ 32 - 1
    · refine iff_of_true ?_ (.inl hsmall)
      rw [Nat.min_eq_left hsmall.le, Nat.div_eq_of_lt hsmall, Nat.div_eq_of_lt (by omega)]
    · rw [Nat.min_eq_right (not_lt.mp hsmall), Nat.div_self (by decide)]
      simp only [hsmall, false_or]
      rw [eq_comm, Nat.div_eq_iff (by omega)]
      omega

theorem div_le_div_of_mul_le {a b whole whole' : Nat} (hpos : 0 < whole) (hpos' : 0 < whole')
    (h : a * whole' ≤ b * whole) : a / whole ≤ b / whole' := by
  refine (Nat.le_div_iff_mul_le hpos').mpr (Nat.le_of_mul_le_mul_right ?_ hpos)
  calc a / whole * whole' * whole = a / whole * whole * whole' := Nat.mul_right_comm _ _ _
    _ ≤ a * whole' := Nat.mul_le_mul_right _ (Nat.div_mul_le_self _ _)
    _ ≤ b * whole := h

theorem trueLoss_mono (w : Window) {more : Nat} (h : w.lost ≤ more) :
    w.trueLoss ≤ trueLoss { w with lost := more } := by
  unfold trueLoss
  dsimp only
  rcases Nat.eq_zero_or_pos w.lost with hzero | hpos
  · rw [hzero, Nat.mul_zero, Nat.zero_div]
    exact Nat.zero_le _
  · refine div_le_div_of_mul_le (by omega) (by omega) ?_
    rw [Nat.mul_assoc, Nat.mul_assoc]
    refine Nat.mul_le_mul_left _ ?_
    rcases Nat.le_total more w.sent with hle | hle
    · rw [Nat.max_eq_left hle, Nat.max_eq_left (h.trans hle)]
      exact Nat.mul_le_mul_right _ h
    · rw [Nat.max_eq_right hle, Nat.mul_comm]
      exact Nat.mul_le_mul_left _ (Nat.le_max_right _ _)

theorem trueUnrepaired_mono (w : Window) {more : Nat} (h : w.framesLost ≤ more) :
    w.trueUnrepaired ≤ trueUnrepaired { w with framesLost := more } := by
  unfold trueUnrepaired
  dsimp only
  rcases Nat.eq_zero_or_pos w.framesLost with hzero | hpos
  · rw [hzero, Nat.mul_zero, Nat.zero_div]
    exact Nat.zero_le _
  · refine div_le_div_of_mul_le (by omega) (by omega) ?_
    rw [Nat.mul_assoc, Nat.mul_assoc]
    refine Nat.mul_le_mul_left _ ?_
    rw [Nat.mul_add, Nat.mul_add, Nat.mul_comm more w.framesLost]
    exact Nat.add_le_add_right (Nat.mul_le_mul_right _ h) _

theorem judge_eq_cut {w : Window} {cooling : Bool} :
    judge w cooling = .cut ↔ w.stalled = false ∧
      (heavyLossPermille < w.lossPermille ∨ unrepairedLossPermille < w.unrepairedPermille ∨
        overuseQueue ≤ w.queueMax ∨ overuseHoldMs < w.holdMax / 1000000) := by
  unfold judge
  cases w.stalled with
  | true => simp
  | false =>
    rw [if_neg Bool.false_ne_true]
    dsimp only
    split
    · rename_i hover
      exact iff_of_true rfl ⟨rfl, hover⟩
    · rename_i hover
      refine iff_of_false ?_ fun h => hover h.2
      split <;> exact nofun

/-- The permille figures are what the counters say exactly where the multiple they are cut to is of
32 bits, and there a cut stays one however much more is lost. -/
theorem loss_arithmetic (w : Window) :
    (w.lossPermille = w.trueLoss ↔ w.LossFits) ∧
      (w.unrepairedPermille = w.trueUnrepaired ↔ w.UnrepairedFits) ∧
      (∀ (more : Nat) (cooling : Bool), w.lost ≤ more → LossFits { w with lost := more } →
        judge w cooling = .cut → judge { w with lost := more } cooling = .cut) ∧
      ∀ (more : Nat) (cooling : Bool), w.framesLost ≤ more → w.UnrepairedFits →
        UnrepairedFits { w with framesLost := more } →
        judge w cooling = .cut → judge { w with framesLost := more } cooling = .cut := by
  refine ⟨w.lossPermille_exact, w.unrepairedPermille_exact, ?_, ?_⟩
  · intro more cooling hmore hfits hcut
    obtain ⟨hstalled, hcause⟩ := judge_eq_cut.mp hcut
    have hloss : w.lossPermille ≤ lossPermille { w with lost := more } := by
      rw [(lossPermille_exact { w with lost := more }).mpr hfits]
      exact w.lossPermille_le.trans (w.trueLoss_mono hmore)
    exact judge_eq_cut.mpr ⟨hstalled, hcause.imp_left fun h => h.trans_le hloss⟩
  · intro more cooling hmore hfits hfits' hcut
    obtain ⟨hstalled, hcause⟩ := judge_eq_cut.mp hcut
    have hloss : w.unrepairedPermille ≤ unrepairedPermille { w with framesLost := more } := by
      rw [(unrepairedPermille_exact { w with framesLost := more }).mpr hfits',
        w.unrepairedPermille_exact.mpr hfits]
      exact w.trueUnrepaired_mono hmore
    exact judge_eq_cut.mpr
      ⟨hstalled, hcause.imp_right fun h => h.imp_left fun h => h.trans_le hloss⟩

/-- Ten million datagrams lost of ten million are a cut, fifty of fifty million are not. -/
theorem heavier_loss_is_no_cut :
    (¬∀ w : Window, w.lost < 2 ^ 32 → w.sent < 2 ^ 32 → w.lossPermille = w.trueLoss) ∧
      ¬∀ (w : Window) (more : Nat) (cooling : Bool), w.lost ≤ more → more < 2 ^ 32 →
        judge w cooling = .cut → judge { w with lost := more } cooling = .cut := by
  constructor
  · intro hclaim
    have hexact := hclaim { lost := 50000000, sent := 50000000 } (by decide) (by decide)
    exact absurd hexact (by decide)
  · intro hclaim
    have hcut := hclaim { lost := 10000000 } 50000000 false (by decide) (by decide) (by decide)
    exact absurd hcut (by decide)

end Rate.Window

end Slopty.Media
