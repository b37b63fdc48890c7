import BareBones.Drivers.Drawing

/-!
# The circle

`drawCircumference` walks along an eighth of the circle, from the axis to the diagonal, and
draws each of its points at the eight places that the symmetries of the circle give.  It goes
one pixel up in each round, and one to the left when the circle has passed the middle between
the two pixels there; all that it keeps is the error of that middle, which is updated by
additions.

The error is always the one of the middle (`Err`), and so the points of the walk are exactly
the pixels through whose horizontal middle line the circle goes: with centre at the origin, the
circle of radius `r` crosses the height `y` between `x - 1/2` and `x + 1/2`, which for whole
numbers is `x ^ 2 - x + y ^ 2 < r ^ 2 ≤ x ^ 2 + x + y ^ 2`.

**Key results**

- `mem_octant_iff`: the points of the walk, by the equation of the circle.
- `drawCircumference_spec`: the circle on the screen, without a gap and without a pixel too many.
-/

namespace BareBones.Drivers.Video

open BareBones.Lib.Rows BareBones.Lib.Views

variable {v : Video} {px py : Nat} {x y radiusError a b : Int} {radius : Nat}

/-! ## The walk -/

/-- The points of the loop of `drawCircumference`, from the given values of its variables on. -/
def octant (x y radiusError : Int) : List (Int × Int) :=
  if y ≤ x then
    if radiusError < 0 then (x, y) :: octant x (y + 1) (radiusError + (2 * (y + 1) + 1))
    else (x, y) :: octant (x - 1) (y + 1) (radiusError + (2 * (y + 1 - (x - 1)) + 1))
  else []
termination_by (x + 1 - y).toNat

/-- The eight places at which a point is drawn. -/
def places (centerX centerY : Int) (p : Int × Int) : List (Int × Int) :=
  [(centerX + p.1, centerY + p.2), (centerX - p.1, centerY + p.2),
    (centerX + p.2, centerY + p.1), (centerX - p.2, centerY + p.1),
    (centerX + p.1, centerY - p.2), (centerX - p.1, centerY - p.2),
    (centerX + p.2, centerY - p.1), (centerX - p.2, centerY - p.1)]

/-- `drawCircumference` -/
def drawCircumference (hexColor : UInt32) (centerX centerY : Int) (radius : Nat) :
    Video → Video :=
  ((octant radius 0 (1 - radius)).flatMap (places centerX centerY)).foldl fun v p ↦
    putPixel hexColor (wrap p.1) (wrap p.2) v

/-! ## The points of the walk -/

/-- The circle has not passed the pixel to the right of `x` at the height `y`. -/
def Outer (radius : Nat) (x y : Int) : Prop := (radius : Int) ^ 2 ≤ x ^ 2 + x + y ^ 2

/-- The circle has passed the pixel to the left of `x` at the height `y`. -/
def Inner (radius : Nat) (x y : Int) : Prop := x ^ 2 - x + y ^ 2 < (radius : Int) ^ 2

/-- The variable of the loop is the error of the middle in the next round. -/
def Err (radius : Nat) (x y radiusError : Int) : Prop :=
  radiusError = (y + 1) ^ 2 + x ^ 2 - x - (radius : Int) ^ 2

/-- What the loop keeps: `Inner` is lost in the last round only, when it has passed the
diagonal. -/
structure Walks (radius : Nat) (x y radiusError : Int) : Prop where
  column : 0 ≤ x
  height : 0 ≤ y
  err : Err radius x y radiusError
  outer : Outer radius x y
  inner : y ≤ x → Inner radius x y

theorem walks_start (hpos : 0 < radius) : Walks radius radius 0 (1 - radius) := by
  have hr : (0 : Int) < radius := by omega
  refine ⟨hr.le, le_refl 0, ?_, ?_, fun _ ↦ ?_⟩
  · unfold Err
    ring
  · unfold Outer
    linarith
  · unfold Inner
    linarith

theorem Walks.straight (h : Walks radius x y radiusError) (hneg : radiusError < 0) :
    Walks radius x (y + 1) (radiusError + (2 * (y + 1) + 1)) := by
  obtain ⟨hx, hy, herr, houter, -⟩ := h
  unfold Err at herr
  unfold Outer at houter
  refine ⟨hx, by omega, ?_, ?_, fun _ ↦ ?_⟩
  · unfold Err
    rw [herr]
    ring
  · unfold Outer
    linarith [show (y + 1) ^ 2 = y ^ 2 + 2 * y + 1 by ring]
  · unfold Inner
    linarith

theorem Walks.left (h : Walks radius x y radiusError) (hle : y ≤ x) (hpos : ¬radiusError < 0) :
    Walks radius (x - 1) (y + 1) (radiusError + (2 * (y + 1 - (x - 1)) + 1)) := by
  obtain ⟨hx, hy, herr, houter, hinner⟩ := h
  have hinner := hinner hle
  unfold Err at herr
  unfold Outer at houter
  unfold Inner at hinner
  -- the circle does not go through the origin
  have hx' : x ≠ 0 := by
    rintro rfl
    obtain rfl : y = 0 := by omega
    linarith
  have hsquare : (x - 1) ^ 2 = x ^ 2 - 2 * x + 1 := by ring
  have hsquare' : (y + 1) ^ 2 = y ^ 2 + 2 * y + 1 := by ring
  refine ⟨by omega, by omega, ?_, ?_, fun hle' ↦ ?_⟩
  · unfold Err
    rw [herr]
    ring
  · unfold Outer
    linarith
  · unfold Inner
    linarith

/-- A pixel through which the circle does not go is not to the right of one that it has not
passed. -/
theorem le_of_outer_inner (hx : 0 ≤ x) (ha : 0 ≤ a) (houter : Outer radius x y)
    (hinner : Inner radius a b) (hyb : y ^ 2 ≤ b ^ 2) : a ≤ x := by
  unfold Outer at houter
  unfold Inner at hinner
  by_contra hlt
  have hsquare : (x + 1) * x ≤ a * (a - 1) := mul_le_mul (by omega) (by omega) hx ha
  linarith [show (x + 1) * x = x ^ 2 + x by ring, show a * (a - 1) = a ^ 2 - a by ring]

theorem Inner.le_radius (h : Inner radius a b) (ha : 0 ≤ a) : a ≤ radius := by
  unfold Inner at h
  by_contra hlt
  have hsquare : ((radius : Int) + 1) * radius ≤ a * (a - 1) :=
    mul_le_mul (by omega) (by omega) (by omega) ha
  linarith [sq_nonneg b, show ((radius : Int) + 1) * radius = (radius : Int) ^ 2 + radius by ring,
    show a * (a - 1) = a ^ 2 - a by ring, Int.natCast_nonneg radius]

/-- At one height there is one point, and the others are higher. -/
theorem Walks.mem_head (h : Walks radius x y radiusError) (hle : y ≤ x) :
    (a, b) = (x, y) ∨ (y + 1 ≤ b ∧ b ≤ a ∧ Inner radius a b ∧ Outer radius a b) ↔
      y ≤ b ∧ b ≤ a ∧ Inner radius a b ∧ Outer radius a b := by
  have hy := h.height
  constructor
  · rintro (heq | ⟨hyb, hba, hin, hout⟩)
    · obtain ⟨rfl, rfl⟩ := Prod.mk.inj heq
      exact ⟨le_refl _, hle, h.inner hle, h.outer⟩
    · exact ⟨by omega, hba, hin, hout⟩
  · rintro ⟨hyb, hba, hin, hout⟩
    rcases hyb.lt_or_eq with hlt | rfl
    · exact .inr ⟨by omega, hba, hin, hout⟩
    · refine .inl ?_
      have hax := le_of_outer_inner (by omega) (by omega) h.outer hin (le_refl _)
      have hxa := le_of_outer_inner (by omega) (by omega) hout (h.inner hle) (le_refl _)
      rw [le_antisymm hax hxa]

/-- **The points of the walk** are those between the axis and the diagonal through which the
circle goes. -/
theorem mem_octant_iff (h : Walks radius x y radiusError) : (a, b) ∈ octant x y radiusError ↔
    y ≤ b ∧ b ≤ a ∧ Inner radius a b ∧ Outer radius a b := by
  fun_induction octant x y radiusError with
  | case1 x y radiusError hle hneg ih =>
      rw [List.mem_cons, ih (h.straight hneg)]
      exact h.mem_head hle
  | case2 x y radiusError hle hpos ih =>
      rw [List.mem_cons, ih (h.left hle hpos)]
      exact h.mem_head hle
  | case3 x y radiusError hgt =>
      -- behind the diagonal the circle has passed everything that is left
      have hy := h.height
      refine iff_of_false List.not_mem_nil ?_
      rintro ⟨hyb, hba, hin, -⟩
      have := le_of_outer_inner h.column (by omega) h.outer hin (pow_le_pow_left₀ hy hyb 2)
      omega

/-! ## The picture -/

/-- The circle of the radius around the origin goes through the pixel, on the line that is
nearer to its diameter. -/
def OnCircle (radius : Nat) (dx dy : Int) : Prop :=
  Inner radius (max |dx| |dy|) (min |dx| |dy|) ∧ Outer radius (max |dx| |dy|) (min |dx| |dy|)

instance (radius : Nat) (dx dy : Int) : Decidable (OnCircle radius dx dy) :=
  inferInstanceAs (Decidable (_ < _ ∧ _ ≤ _))

/-- A point is drawn at the places that have its two distances. -/
theorem mem_places_iff {centerX centerY : Int} {q : Int × Int} (hb : 0 ≤ b) (hab : b ≤ a) :
    q ∈ places centerX centerY (a, b) ↔
      max |q.1 - centerX| |q.2 - centerY| = a ∧ min |q.1 - centerX| |q.2 - centerY| = b := by
  obtain ⟨qx, qy⟩ := q
  simp only [places, List.mem_cons, List.not_mem_nil, or_false, Prod.mk.injEq]
  rcases abs_cases (qx - centerX) with ⟨hx, _⟩ | ⟨hx, _⟩
  · rcases abs_cases (qy - centerY) with ⟨hy, _⟩ | ⟨hy, _⟩
    · rw [hx, hy]
      omega
    · rw [hx, hy]
      omega
  · rcases abs_cases (qy - centerY) with ⟨hy, _⟩ | ⟨hy, _⟩
    · rw [hx, hy]
      omega
    · rw [hx, hy]
      omega

/-- **The circle on the screen**: an opaque colour is at the pixels through which the circle
goes, and nowhere else. -/
theorem drawCircumference_spec {hexColor : UInt32} {centerX centerY : Int}
    (hsolid : alphaOf hexColor = 0xFF) (hpos : 0 < radius) (hradius : radius < 2 ^ 31)
    (hcx : |centerX| ≤ 2 ^ 62) (hcy : |centerY| ≤ 2 ^ 62) (hs : v.Spread)
    (hin : v.withinScreenBounds px py) :
    (drawCircumference hexColor centerX centerY radius v).readPixel px py =
      if OnCircle radius (px - centerX) (py - centerY) then hexColor % 2 ^ 24
      else v.readPixel px py := by
  obtain ⟨hpx, hpy⟩ := lt_of_within hin
  rw [abs_le] at hcx hcy
  have hwalk := walks_start hpos
  have hdraw : Paints px py (drawCircumference hexColor centerX centerY radius)
      (((octant radius 0 (1 - radius)).flatMap (places centerX centerY)).foldl fun old p ↦
        if wrap p.1 = px ∧ wrap p.2 = py then hexColor % 2 ^ 24 else old) := by
    refine Acts.each fun p _ ↦ (paints_putPixel hexColor _ _).congr fun old ↦ ?_
    rw [shade_solid hsolid]
  refine (hdraw v ⟨hs, hin⟩).2.trans ((foldl_hits _ _).trans (if_congr ?_ rfl rfl))
  constructor
  · rintro ⟨⟨qx, qy⟩, hq, hx, hy⟩
    obtain ⟨⟨a, b⟩, hab, hplace⟩ := List.mem_flatMap.1 hq
    obtain ⟨hb, hba, hinner, houter⟩ := (mem_octant_iff hwalk).1 hab
    have hle := hinner.le_radius (by omega)
    obtain ⟨hmax, hmin⟩ := (mem_places_iff hb hba).1 hplace
    -- all that is drawn is near enough to the centre for a comparison of numbers
    obtain ⟨hdx, hdy⟩ := max_le_iff.1 (hmax.le.trans hle)
    rw [abs_le] at hdx hdy
    obtain rfl := (wrap_eq_iff (by omega) (by omega) hpx).1 hx
    obtain rfl := (wrap_eq_iff (by omega) (by omega) hpy).1 hy
    unfold OnCircle
    rw [hmax, hmin]
    exact ⟨hinner, houter⟩
  · rintro ⟨hinner, houter⟩
    have hb : 0 ≤ min |(px : Int) - centerX| |(py : Int) - centerY| :=
      le_min (abs_nonneg _) (abs_nonneg _)
    refine ⟨(px, py), List.mem_flatMap.2 ⟨_, (mem_octant_iff hwalk).2 ⟨hb, min_le_max, hinner,
      houter⟩, (mem_places_iff hb min_le_max).2 ⟨rfl, rfl⟩⟩, ?_, ?_⟩
    · exact (wrap_eq_iff (by omega) (by omega) hpx).2 rfl
    · exact (wrap_eq_iff (by omega) (by omega) hpy).2 rfl

/-- A circle half of which is not on the screen. -/
theorem drawCircumference_spec_half :
    (drawCircumference 0x00FF00 0 4 3 canvas).readPixel 2 6 =
      if OnCircle 3 ((2 : Nat) - 0) ((6 : Nat) - 4) then 0x00FF00 % 2 ^ 24
      else canvas.readPixel 2 6 :=
  drawCircumference_spec (by decide) (by decide) (by decide) (by decide) (by decide) (by decide)
    (by decide)

end BareBones.Drivers.Video
