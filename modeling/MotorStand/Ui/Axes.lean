import MotorStand.Client.LogFile
import MotorStand.Ui.MainLoop

/-!
# The axes of the plot

`on_draw_event` draws grid lines at fifths and quarters of the plot, and labels its ticks with
fifths of `max_y` and quarters of `max_x`. A point is read off by the lines it lies between.
-/

namespace MotorStand

open CText Transition

/-- What is drawn around the trace. -/
inductive AxisMark where
  | line (start finish : ScreenPoint)
  | text (place : ScreenPoint) (shown : List Char)
deriving DecidableEq

/-! ## Drawing -/

/-- `y_ticks`. -/
def yTicks : Nat := 5

/-- `x_ticks`. -/
def xTicks : Nat := 4

/-- Where a horizontal grid line is drawn. -/
def gridY (height : Int) (i : Nat) : ℚ :=
  marginTop + graphHeight height - (graphHeight height : ℚ) * i / yTicks

/-- Where a vertical grid line is drawn. -/
def gridX (width : Int) (q : Nat) : ℚ := marginLeft + (graphWidth width : ℚ) * q / xTicks

/-- The grid lines; the vertical one at 0 is the axis. -/
def gridLines (width height : Int) : List AxisMark :=
  (List.range (yTicks + 1)).map (fun i =>
      .line ⟨marginLeft, gridY height i⟩ ⟨marginLeft + graphWidth width, gridY height i⟩) ++
    (List.range' 1 xTicks).map fun q =>
      .line ⟨gridX width q, marginTop⟩ ⟨gridX width q, marginTop + graphHeight height⟩

/-- The line at 0, if there is a scale. -/
def zeroLine (width height : Int) (graph : GraphData) : List AxisMark :=
  let yPosZero : ℚ :=
    marginTop + graphHeight height - 0 * scale (graphHeight height) graph.maxY
  if 0 < graph.maxY then
    [.line ⟨marginLeft, yPosZero⟩ ⟨marginLeft + graphWidth width, yPosZero⟩]
  else []

/-- The two axes and their names. The first name is turned by a right angle. -/
def axisLines (width height : Int) : List AxisMark :=
  [.line ⟨marginLeft, marginTop + graphHeight height⟩
      ⟨marginLeft + graphWidth width, marginTop + graphHeight height⟩,
    .line ⟨marginLeft, marginTop⟩ ⟨marginLeft, marginTop + graphHeight height⟩,
    .text ⟨15, (marginTop + (graphHeight height).tdiv 2 : Int)⟩ "Value".toList,
    .text ⟨(marginLeft + (graphWidth width).tdiv 2 - 30 : Int), (height - 5 : Int)⟩
      "Time (s)".toList]

/-- `snprintf(label, sizeof(label), "%.1f", value)`. -/
def axisLabel (value : ℚ) : List Char := snprintf 32 (printPlaces 1 (doubleOf value))

/-- The value of a label. -/
def tickValue (graph : GraphData) (i : Nat) : ℚ := graph.maxY * i / yTicks

/-- The time of a label. -/
def tickTime (graph : GraphData) (q : Nat) : ℚ := graph.maxX * (q / 4)

/-- Where a value is labelled. -/
def tickY (height : Int) (graph : GraphData) (i : Nat) : ℚ :=
  marginTop + graphHeight height - tickValue graph i * scale (graphHeight height) graph.maxY

/-- Where a time is labelled. -/
def tickX (width : Int) (q : Nat) : ℚ := marginLeft + (q / 4 : ℚ) * graphWidth width

/-- The marks and labels of the values. -/
def valueTicks (height : Int) (graph : GraphData) : List AxisMark :=
  (List.range (yTicks + 1)).flatMap fun i =>
    [.line ⟨marginLeft - 5, tickY height graph i⟩ ⟨marginLeft, tickY height graph i⟩,
      .text ⟨marginLeft - 40, tickY height graph i + 4⟩ (axisLabel (tickValue graph i))]

/-- The marks and labels of the times. -/
def timeTicks (width height : Int) (graph : GraphData) : List AxisMark :=
  (List.range (4 + 1)).flatMap fun q =>
    [.line ⟨tickX width q, marginTop + graphHeight height⟩
        ⟨tickX width q, marginTop + graphHeight height + 6⟩,
      .text ⟨tickX width q - 10, marginTop + graphHeight height + 20⟩
        (axisLabel (tickTime graph q))]

/-- What `on_draw_event` draws in front of the trace. -/
def drawAxes (width height : Int) (graph : GraphData) : List AxisMark :=
  gridLines width height ++ zeroLine width height graph ++ axisLines width height ++
    valueTicks height graph ++ timeTicks width height graph

/-! ## Reading -/

variable {width height : Int} {graph : GraphData} {values : List ℚ}

/-- The ticks divide the scale as the grid lines divide the plot. -/
theorem tickY_eq (scaled : 0 < graph.maxY) (i : Nat) : tickY height graph i = gridY height i := by
  have nonzero : graph.maxY ≠ 0 := scaled.ne'
  rw [tickY, gridY, tickValue, scale, if_pos scaled]
  congr 1
  field_simp

/-- The marks of the times stand at their grid lines. -/
theorem tickX_eq (q : Nat) : tickX width q = gridX width q := by
  rw [tickX, gridX, xTicks]
  push_cast
  ring

/-- The last tick of the time is the newest time. -/
theorem tickX_eq_scaled (newest : 0 < graph.maxX) (q : Nat) :
    tickX width q = marginLeft + tickTime graph q * scale (graphWidth width) graph.maxX := by
  have nonzero : graph.maxX ≠ 0 := newest.ne'
  rw [tickX, tickTime, scale, if_pos newest]
  congr 1
  field_simp

/-- A positive extent has a positive scale. -/
theorem scale_pos {extent : Int} {largest : ℚ} (positive : 0 < extent) (largestPos : 0 < largest) :
    0 < scale extent largest := by
  have extentPos : (0 : ℚ) < extent := by exact_mod_cast positive
  rw [scale, if_pos largestPos]
  exact div_pos extentPos largestPos

/-- A value lies above the line of a tick if it is not less than what the tick stands for. -/
theorem screenY_le_tickY_iff (positive : 0 < graphHeight height) (scaled : 0 < graph.maxY)
    (point : DataPoint) (i : Nat) :
    (toScreen width height graph point).screenY ≤ tickY height graph i ↔
      tickValue graph i ≤ point.yValue := by
  rw [tickY, toScreen, sub_le_sub_iff_left]
  exact mul_le_mul_iff_left₀ (scale_pos positive scaled)

/-- A point is to the right of a mark exactly if it is not before its time. -/
theorem tickX_le_screenX_iff (positive : 0 < graphWidth width) (newest : 0 < graph.maxX)
    (point : DataPoint) (q : Nat) :
    tickX width q ≤ (toScreen width height graph point).screenX ↔
      tickTime graph q ≤ point.xTime := by
  rw [tickX_eq_scaled newest, toScreen, add_le_add_iff_left]
  exact mul_le_mul_iff_left₀ (scale_pos positive newest)

/-- A label tells a number which is off by half a tenth at most. -/
def Tells (label : List Char) (value : ℚ) : Prop :=
  ∃ shown y, strtod label = (shown, []) ∧ shown.number = some y ∧ |y - value| ≤ 1 / 20

/-- Up to 27 digits fit in the buffer of a label. -/
theorem axisLabel_tells {value : ℚ} (fits : |value| < 10 ^ 27) : Tells (axisLabel value) value := by
  obtain ⟨negative, magnitude, same, size⟩ : ∃ negative magnitude,
      doubleOf value = .finite negative magnitude ∧ (magnitude : ℚ) = |value| :=
    ⟨_, _, rfl, rfl⟩
  have below : magnitude < 10 ^ 27 := by
    rw [← size] at fits
    exact_mod_cast fits
  have length := printPlaces_length_le 1 negative below
  have number := number_doubleOf value
  rw [same] at number
  have ends : Stops goesOn [] := fun _ member => nomatch member
  obtain ⟨shown, y, read, tells, near⟩ := exists_shown 1 negative magnitude number ends
  rw [List.append_nil] at read
  refine ⟨shown, y, ?_, tells, near.trans (by norm_num)⟩
  rw [axisLabel, snprintf, same, List.take_of_length_le length]
  exact read

/-- What a grid line at `y` is read with: a label which tells a value, and exactly the points on
or above the line are those which reach it. -/
structure ValueReads (width height : Int) (graph : GraphData) (y value : ℚ) : Prop where
  line : .line ⟨marginLeft, y⟩ ⟨marginLeft + graphWidth width, y⟩ ∈ drawAxes width height graph
  label : ∃ shown, .text ⟨marginLeft - 40, y + 4⟩ shown ∈ drawAxes width height graph ∧
    Tells shown value
  above : ∀ point ∈ graph.data,
    (toScreen width height graph point).screenY ≤ y ↔ value ≤ point.yValue

/-- What a grid line or the axis at `x` is read with. -/
structure TimeReads (width height : Int) (graph : GraphData) (x time : ℚ) : Prop where
  line : .line ⟨x, marginTop⟩ ⟨x, marginTop + graphHeight height⟩ ∈ drawAxes width height graph
  label : ∃ shown, .text ⟨x - 10, marginTop + graphHeight height + 20⟩ shown ∈
    drawAxes width height graph ∧ Tells shown time
  behind : ∀ point ∈ graph.data,
    x ≤ (toScreen width height graph point).screenX ↔ time ≤ point.xTime

/-- A value can be read off its line. -/
theorem valueReads (positive : 0 < graphHeight height) (scaled : 0 < graph.maxY)
    (small : graph.maxY < 10 ^ 27) {i : Nat} (inside : i ≤ yTicks) :
    ValueReads width height graph (gridY height i) (tickValue graph i) := by
  have part : (i : ℚ) ≤ yTicks := by exact_mod_cast inside
  have five : (yTicks : ℚ) = 5 := rfl
  have nonneg : 0 ≤ tickValue graph i := by
    unfold tickValue
    positivity
  have below : tickValue graph i ≤ graph.maxY := by
    rw [tickValue, div_le_iff₀ (by rw [five]; norm_num)]
    exact mul_le_mul_of_nonneg_left part scaled.le
  have range : i ∈ List.range (yTicks + 1) := List.mem_range.mpr (Nat.lt_succ_of_le inside)
  rw [← tickY_eq scaled]
  exact {
    line := by
      rw [tickY_eq scaled]
      simp only [drawAxes, gridLines, List.mem_append]
      exact .inl (.inl (.inl (.inl (.inl (List.mem_map.mpr ⟨i, range, rfl⟩)))))
    label := by
      refine ⟨axisLabel (tickValue graph i), ?_, axisLabel_tells ?_⟩
      · simp only [drawAxes, List.mem_append]
        exact .inl (.inr (List.mem_flatMap.mpr
          ⟨i, range, List.mem_cons_of_mem _ List.mem_cons_self⟩))
      · rw [abs_of_nonneg nonneg]
        exact below.trans_lt small
    above := fun point _ => screenY_le_tickY_iff positive scaled point i }

/-- A time can be read off its line. -/
theorem timeReads (positive : 0 < graphWidth width) (newest : 0 < graph.maxX)
    (small : graph.maxX < 10 ^ 27) {q : Nat} (inside : q ≤ xTicks) :
    TimeReads width height graph (gridX width q) (tickTime graph q) := by
  have part : (q : ℚ) ≤ 4 := by exact_mod_cast inside
  have nonneg : 0 ≤ tickTime graph q := by
    unfold tickTime
    positivity
  have below : tickTime graph q ≤ graph.maxX :=
    mul_le_of_le_one_right newest.le ((div_le_one (by norm_num)).mpr part)
  have range : q ∈ List.range (4 + 1) := List.mem_range.mpr (Nat.lt_succ_of_le inside)
  rw [← tickX_eq]
  exact {
    line := by
      rw [tickX_eq]
      simp only [drawAxes, gridLines, List.mem_append]
      cases q with
      | zero =>
          -- the axis itself
          have axis : gridX width 0 = marginLeft := by simp [gridX]
          rw [axis]
          exact .inl (.inl (.inr (List.mem_cons_of_mem _ List.mem_cons_self)))
      | succ q =>
          have quarter : q + 1 ∈ List.range' 1 xTicks := List.mem_range'_1.mpr ⟨by omega, by omega⟩
          exact .inl (.inl (.inl (.inl (.inr (List.mem_map.mpr ⟨q + 1, quarter, rfl⟩)))))
    label := by
      refine ⟨axisLabel (tickTime graph q), ?_, axisLabel_tells ?_⟩
      · simp only [drawAxes, List.mem_append]
        exact .inr (List.mem_flatMap.mpr ⟨q, range, List.mem_cons_of_mem _ List.mem_cons_self⟩)
      · rw [abs_of_nonneg nonneg]
        exact below.trans_lt small
    behind := fun point _ => tickX_le_screenX_iff positive newest point q }

/-! ## The window -/

/-- What is read off the plot. -/
structure AxesTell (width height : Int) (graph : GraphData) : Prop where
  values : ∀ i ≤ yTicks, ValueReads width height graph (gridY height i) (tickValue graph i)
  times : ∀ q ≤ xTicks, TimeReads width height graph (gridX width q) (tickTime graph q)
  headroom : ∀ point ∈ graph.data,
    gridY height yTicks < (toScreen width height graph point).screenY
  newest : ∀ point, graph.data.getLast? = some point →
    (toScreen width height graph point).screenX = gridX width xTicks

/-- The newest point of the trace is at `max_x`. -/
theorem Shows.last_xTime (shows : Shows values graph) {point : DataPoint}
    (last : graph.data.getLast? = some point) : point.xTime = graph.maxX := by
  have inside := List.mem_of_getLast? last
  have some := shows.ne_nil inside
  rw [shows.data, List.rtake, List.getLast?_drop] at last
  split at last
  next => cases last
  next =>
      rw [shows.newest some]
      obtain ⟨earlier, value, rfl⟩ := (List.eq_nil_or_concat' values).resolve_left some
      rw [points_concat, List.getLast?_concat] at last
      cases last
      rw [List.length_append, List.length_singleton]

/-- Whatever was recorded and however the window is sized. -/
theorem axesTell_of_runs {events : List LoopEvent} {loop : MainLoop}
    (runs : Runs mainLoop events loop) (recorded : loop.graph.data ≠ [])
    (wide : 0 < graphWidth width) (high : 0 < graphHeight height)
    (values : loop.graph.maxY < 10 ^ 27) (times : loop.graph.maxX < 10 ^ 27) :
    AxesTell width height loop.graph := by
  have refines := refines_run (events.filterMap LoopEvent.uiEvent)
  rw [← graph_of_runs runs] at refines
  have shows := refines.shows
  obtain ⟨point, member⟩ := List.exists_mem_of_ne_nil _ recorded
  have some := shows.ne_nil member
  have scaled : 0 < loop.graph.maxY := by
    rw [shows.scaled some]
    exact GraphData.headroom_pos _
  have newest : 0 < loop.graph.maxX := by
    have lengthPos := List.length_pos_of_ne_nil some
    rw [shows.newest some]
    positivity
  exact {
    values := fun i inside => valueReads high scaled values inside
    times := fun q inside => timeReads wide newest times inside
    headroom := by
      intro point member
      have below := GraphData.yValue_le_headroom member
      rw [← shows.scaled some] at below
      have top : tickValue loop.graph yTicks = loop.graph.maxY := by
        rw [tickValue]
        exact mul_div_cancel_right₀ _ (by norm_num [yTicks])
      rw [← tickY_eq scaled, ← not_le, screenY_le_tickY_iff high scaled, top, not_le]
      apply below.trans_lt
      exact div_lt_self scaled (by norm_num)
    newest := by
      intro point last
      have whole : tickTime loop.graph xTicks = loop.graph.maxX := by norm_num [tickTime, xTicks]
      rw [← tickX_eq, tickX_eq_scaled newest, toScreen, shows.last_xTime last, whole] }

/-- The samples 1, 2 and 3.5 in a window of 800 by 650. -/
theorem axesTell_crossedSamples : ∃ loop, Runs mainLoop crossedSamples loop ∧
    AxesTell 800 650 loop.graph := by
  obtain ⟨loop, runs, shown⟩ := runs_crossedSamples
  have recorded : loop.graph.data ≠ [] := by
    intro none
    rw [none] at shown
    cases shown
  refine ⟨loop, runs, axesTell_of_runs runs recorded (by decide) (by decide) ?_ ?_⟩
  all_goals
    rw [graph_of_runs runs]
    decide +kernel

end MotorStand
