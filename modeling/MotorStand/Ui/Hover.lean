import Mathlib.Analysis.Real.Sqrt
import MotorStand.Ui.Graph

/-!
# Hovering over the plot

`on_motion_event` looks for a point of the trace near the mouse. A distance is a
square root; the search compares squares instead, which are exact rationals.
-/

namespace MotorStand

/-- The inner loop of `on_motion_event`, which breaks behind the first point closer than
`closest_distance`. -/
def searchTrace {K : Type} [LT K] [DecidableLT K] (distance : DataPoint → K) (closest : K) :
    List DataPoint → K × Option DataPoint
  | [] => (closest, none)
  | point :: rest =>
      if distance point < closest then (distance point, some point)
      else searchTrace distance closest rest

/-- The square of the distance between the mouse and a point of the screen. -/
def distanceSquared (mouse screen : ScreenPoint) : ℚ :=
  (mouse.screenX - screen.screenX) ^ 2 + (mouse.screenY - screen.screenY) ^ 2

/-- `on_motion_event`: the point whose time and value are shown, or `none` for the text which
asks to hover over a point. -/
def onMotionEvent (visible : Bool) (width height : Int) (graph : GraphData) (mouse : ScreenPoint) :
    Option DataPoint :=
  if visible then
    (searchTrace (fun point => distanceSquared mouse (toScreen width height graph point)) (10 ^ 2)
      graph.data).2
  else none

/-! ## The search -/

section Search

variable {K L : Type} [LinearOrder K] [LinearOrder L] {distance : DataPoint → K} {closest : K}
  {trace : List DataPoint} {point : DataPoint}

/-- What is reported is the first point closer than the bound. -/
theorem searchTrace_eq_some_iff :
    (searchTrace distance closest trace).2 = some point ↔
      ∃ earlier later, trace = earlier ++ point :: later ∧
        (∀ other ∈ earlier, closest ≤ distance other) ∧ distance point < closest := by
  induction trace with
  | nil =>
      constructor
      · intro found
        cases found
      · rintro ⟨earlier, later, split, _⟩
        cases earlier <;> cases split
  | cons first rest ih =>
      rw [searchTrace]
      split
      next near =>
          constructor
          · rintro found
            cases found
            exact ⟨[], rest, rfl, fun _ none => (nomatch none), near⟩
          · rintro ⟨earlier, later, split, far, _⟩
            cases earlier with
            | nil =>
                cases split
                rfl
            | cons other earlier =>
                cases split
                exact absurd near (not_lt.mpr (far first List.mem_cons_self))
      next far =>
          rw [ih]
          constructor
          · rintro ⟨earlier, later, rfl, others, near⟩
            refine ⟨first :: earlier, later, rfl, ?_, near⟩
            intro other member
            rcases List.mem_cons.mp member with rfl | inside
            · exact not_lt.mp far
            · exact others other inside
          · rintro ⟨earlier, later, split, others, near⟩
            cases earlier with
            | nil =>
                cases split
                exact absurd near far
            | cons other earlier =>
                cases split
                exact ⟨earlier, later, rfl,
                  fun other inside => others other (List.mem_cons_of_mem _ inside), near⟩

/-- The search finds a point exactly if one is close enough. -/
theorem searchTrace_isSome_iff :
    (searchTrace distance closest trace).2.isSome ↔ ∃ point ∈ trace, distance point < closest := by
  induction trace with
  | nil => simp [searchTrace]
  | cons first rest ih =>
      rw [searchTrace]
      split
      next near => simp [near]
      next far => simp [far, ih]

/-- Distances may be compared after a map which keeps their order. -/
theorem searchTrace_map (scale : K → L)
    (ordered : ∀ point, scale (distance point) < scale closest ↔ distance point < closest) :
    (searchTrace (fun point => scale (distance point)) (scale closest) trace).2 =
      (searchTrace distance closest trace).2 := by
  induction trace with
  | nil => rfl
  | cons first rest ih =>
      rw [searchTrace, searchTrace]
      simp only [ordered]
      split
      next => rfl
      next => exact ih

end Search

/-! ## Distances on the screen -/

variable {visible : Bool} {width height : Int} {graph : GraphData} {mouse : ScreenPoint}
  {point : DataPoint}

/-- The distance in which a point is drawn from the mouse. -/
noncomputable def drawnDistance (width height : Int) (graph : GraphData) (mouse : ScreenPoint)
    (point : DataPoint) : ℝ :=
  √(distanceSquared mouse (toScreen width height graph point) : ℚ)

/-- A squared distance is not negative. -/
theorem distanceSquared_nonneg (mouse screen : ScreenPoint) : 0 ≤ distanceSquared mouse screen := by
  unfold distanceSquared
  positivity

/-- The search over squares is the one over distances, from ten pixels on. -/
theorem onMotionEvent_eq_search :
    onMotionEvent true width height graph mouse =
      (searchTrace (drawnDistance width height graph mouse) 10 graph.data).2 := by
  have ten : (10 : ℝ) = √((10 ^ 2 : ℚ) : ℝ) := by
    rw [Rat.cast_pow, Rat.cast_ofNat]
    exact (Real.sqrt_sq (by norm_num)).symm
  rw [onMotionEvent, if_pos rfl, ten]
  symm
  apply searchTrace_map fun square : ℚ => √(square : ℝ)
  intro point
  rw [Real.sqrt_lt_sqrt_iff (by exact_mod_cast distanceSquared_nonneg _ _)]
  exact Rat.cast_lt

/-- A point is reported if one is drawn less than ten pixels from the mouse, and then the
nearest one. -/
structure ReportsNearest (width height : Int) (graph : GraphData) (mouse : ScreenPoint) :
    Prop where
  reports : (onMotionEvent true width height graph mouse).isSome ↔
    ∃ point ∈ graph.data, drawnDistance width height graph mouse point < 10
  nearest : ∀ point, onMotionEvent true width height graph mouse = some point →
    point ∈ graph.data ∧ ∀ other ∈ graph.data,
      drawnDistance width height graph mouse point ≤ drawnDistance width height graph mouse other

/-- The search breaks at the first point within ten pixels, which is the nearest one exactly
if no later point is nearer. -/
theorem reportsNearest_iff (width height : Int) (graph : GraphData) (mouse : ScreenPoint) :
    ReportsNearest width height graph mouse ↔
      ∀ earlier first later, graph.data = earlier ++ first :: later →
        (∀ other ∈ earlier, 10 ≤ drawnDistance width height graph mouse other) →
          drawnDistance width height graph mouse first < 10 →
            ∀ other ∈ later, drawnDistance width height graph mouse first ≤
              drawnDistance width height graph mouse other := by
  constructor
  · intro reports earlier first later split far near other behind
    have found : onMotionEvent true width height graph mouse = some first := by
      rw [onMotionEvent_eq_search, searchTrace_eq_some_iff]
      exact ⟨earlier, later, split, far, near⟩
    apply (reports.nearest first found).2
    rw [split]
    exact List.mem_append_right _ (List.mem_cons_of_mem _ behind)
  · intro closer
    constructor
    · rw [onMotionEvent_eq_search, searchTrace_isSome_iff]
    · intro point found
      rw [onMotionEvent_eq_search, searchTrace_eq_some_iff] at found
      obtain ⟨earlier, later, split, far, near⟩ := found
      constructor
      · rw [split]
        exact List.mem_append_right _ List.mem_cons_self
      · intro other member
        rw [split] at member
        rcases List.mem_append.mp member with before | here
        · exact near.le.trans (far other before)
        · rcases List.mem_cons.mp here with rfl | behind
          · exact le_rfl
          · exact closer earlier point later split far near other behind

/-- The graph after two equal values. -/
def twoValues : GraphData := GraphCall.run [.logNewData 50, .logNewData 50]

/-- The mouse is on the second point, and the first is drawn five pixels to the left. -/
theorem not_reportsNearest_twoValues : ¬ ReportsNearest 90 115 twoValues ⟨70, 25⟩ := by
  intro reports
  have found : onMotionEvent true 90 115 twoValues ⟨70, 25⟩ = some ⟨1 / 10, 50⟩ := by decide +kernel
  have second : ⟨2 / 10, 50⟩ ∈ twoValues.data := by decide +kernel
  have nearest := (reports.nearest _ found).2 _ second
  have here : distanceSquared ⟨70, 25⟩ (toScreen 90 115 twoValues ⟨2 / 10, 50⟩) = 0 := by
    decide +kernel
  have left : distanceSquared ⟨70, 25⟩ (toScreen 90 115 twoValues ⟨1 / 10, 50⟩) = 25 := by
    decide +kernel
  rw [drawnDistance, drawnDistance, here, left, Rat.cast_zero, Real.sqrt_zero] at nearest
  exact absurd nearest (not_le.mpr (Real.sqrt_pos.mpr (by norm_num)))

end MotorStand
