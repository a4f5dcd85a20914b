import PQL.Lib.CInt
import PQL.Lib.Rounding

/-!
# The axes of a plot

A graph relates times, frequencies and amplitudes to pixels.  All arithmetic is exact; the
logarithms of the axes are parameters.
-/

namespace PQL

/-- `LOG10` and `POW10`. -/
structure Logs10 where
  log10 : ℚ → ℚ
  pow10 : ℚ → ℚ

/-- `graph`. -/
structure Graph where
  logx : Bool
  logy : Bool
  user_xmin : ℚ
  user_ymin : ℚ
  user_xdif : ℚ
  user_ydif : ℚ
  pix_xmin : ℤ
  pix_ymin : ℤ
  pix_ymax : ℤ
  pix_xdif : ℤ
  pix_ydif : ℤ

namespace Graph

variable (L : Logs10) (gr : Graph)

/-- `USER2PIXX`. -/
def user2pixx (x : ℚ) : ℤ :=
  roundEven (((if gr.logx then L.log10 x else x) - gr.user_xmin) / gr.user_xdif * gr.pix_xdif +
    gr.pix_xmin)

/-- `PIX2USERX`. -/
def pix2userx (x : ℤ) : ℚ :=
  let u := (x - gr.pix_xmin : ℚ) / gr.pix_xdif * gr.user_xdif + gr.user_xmin
  if gr.logx then L.pow10 u else u

/-- `USER2PIXY`. -/
def user2pixy (y : ℚ) : ℤ :=
  truncate (gr.pix_ydif - ((if gr.logy then L.log10 y else y) - gr.user_ymin) / gr.user_ydif *
    gr.pix_ydif + gr.pix_ymin)

/-- `PIX2USERY`. -/
def pix2usery (y : ℤ) : ℚ :=
  let u := (1 - (y - gr.pix_ymin : ℚ) / gr.pix_ydif) * gr.user_ydif + gr.user_ymin
  if gr.logy then L.pow10 u else u

end Graph

/-- The axis grows to the right; on a logarithmic one, the logarithm does from `x₀` on. -/
structure Graph.Upright (L : Logs10) (gr : Graph) (x₀ : ℚ) : Prop where
  user_pos : 0 < gr.user_xdif
  pix_pos : 0 < gr.pix_xdif
  log_mono : gr.logx = true → MonotoneOn L.log10 (Set.Ici x₀)

theorem Graph.Upright.mono {L : Logs10} {gr : Graph} {x₀ x y : ℚ} (h : gr.Upright L x₀)
    (hx : x₀ ≤ x) (hxy : x ≤ y) : gr.user2pixx L x ≤ gr.user2pixx L y := by
  have hpix : (0 : ℚ) ≤ gr.pix_xdif := by exact_mod_cast h.pix_pos.le
  have hle : (if gr.logx then L.log10 x else x) ≤ if gr.logx then L.log10 y else y := by
    split_ifs with hlog
    · exact h.log_mono hlog hx (hx.trans hxy) hxy
    · exact hxy
  apply roundEven_mono
  have hsub := sub_le_sub_right hle gr.user_xmin
  have hdiv := div_le_div_of_nonneg_right hsub h.user_pos.le
  linarith [mul_le_mul_of_nonneg_right hdiv hpix]

end PQL
