import Mathlib.Algebra.Order.Field.Rat
import Mathlib.Tactic.FieldSimp
import Mathlib.Tactic.Linarith
import Mathlib.Tactic.NormNum
import Mathlib.Tactic.Positivity
import Mathlib.Tactic.Ring
import MotorStand.Stream.Window

/-!
# The plotted data of `teststandui`

There is one trace (`TOTAL_TRACE_COUNT` is 1), so `data` is the list of
`traces[0]`. Doubles are exact rationals.
-/

namespace MotorStand

open SlidingWindow

/-- `DATA_POINTS_TO_KEEP`. -/
def dataPointsToKeep : Nat := 500

/-- `DataPoint`. -/
structure DataPoint where
  xTime : ℚ
  yValue : ℚ
deriving DecidableEq

/-- A row of the table, `COL_TIME` and `COL_PRIMARY`. -/
structure TableRow where
  colTime : ℚ
  colPrimary : ℚ
deriving DecidableEq

/-- `g_graph_data`, and the static `g_current_time` next to it. -/
structure GraphData where
  data : List DataPoint
  listStore : List TableRow
  maxX : ℚ
  maxY : ℚ
  isRecording : Bool
  hasDataInput : Bool
  testMode : Bool
  testTimerId : Nat
  currentTime : ℚ
deriving DecidableEq

namespace GraphData

/-- `g_graph_data = {0}` and `g_current_time = 0.0`. -/
def initial : GraphData := ⟨[], [], 0, 0, false, false, false, 0, 0⟩

/-- `update_table`. -/
def updateTable (graph : GraphData) (time primaryVal : ℚ) : GraphData :=
  { graph with listStore := graph.listStore ++ [⟨time, primaryVal⟩] }

/-- The loop of `log_new_data` over the points of the trace. -/
def peakFrom (maxy : ℚ) : List DataPoint → ℚ
  | [] => maxy
  | point :: rest => peakFrom (if maxy < point.yValue then point.yValue else maxy) rest

/-- `max_y`: the peak of the trace and 10% headroom. -/
def headroom (trace : List DataPoint) : ℚ :=
  let maxy := peakFrom 0 trace
  let maxy := if maxy ≤ 0 then 1 else maxy
  maxy * (11 / 10)

/-- `log_new_data`. -/
def logNewData (graph : GraphData) (primaryVal : ℚ) : GraphData :=
  let currentTime := graph.currentTime + 1 / 10
  let data := slide dataPointsToKeep graph.data ⟨currentTime, primaryVal⟩
  { graph.updateTable currentTime primaryVal with
    data, currentTime, maxX := currentTime, maxY := headroom data }

/-- `reset_graph_data`. -/
def resetGraphData (graph : GraphData) : GraphData :=
  { graph with data := [], listStore := [], currentTime := 0, maxX := 0, maxY := 150 }

/-- The peak is no lower than where the search starts. -/
theorem le_peakFrom (maxy : ℚ) (trace : List DataPoint) : maxy ≤ peakFrom maxy trace := by
  induction trace generalizing maxy with
  | nil => exact le_refl _
  | cons point rest ih =>
      rw [peakFrom]
      split
      next higher => exact higher.le.trans (ih _)
      next => exact ih _

/-- No value of the trace is above the peak. -/
theorem yValue_le_peakFrom (maxy : ℚ) {trace : List DataPoint} {point : DataPoint}
    (member : point ∈ trace) : point.yValue ≤ peakFrom maxy trace := by
  induction trace generalizing maxy with
  | nil => cases member
  | cons first rest ih =>
      rw [peakFrom]
      cases member with
      | head =>
          apply le_trans _ (le_peakFrom _ rest)
          split
          next => exact le_refl _
          next lower => exact not_lt.mp lower
      | tail _ later => exact ih _ later

/-- There is always a scale. -/
theorem headroom_pos (trace : List DataPoint) : 0 < headroom trace := by
  unfold headroom
  dsimp only
  split
  next => norm_num
  next positive => linarith

/-- The peak is recomputed from what is left, so every point of the trace has its headroom. -/
theorem yValue_le_headroom {trace : List DataPoint} {point : DataPoint}
    (member : point ∈ trace) : point.yValue ≤ headroom trace / (11 / 10) := by
  have below := yValue_le_peakFrom 0 member
  unfold headroom
  dsimp only
  rw [mul_div_assoc, div_self (by norm_num), mul_one]
  split
  next low => linarith
  next => exact below

end GraphData

/-- The points of values logged since a reset: the first at 0.1, then every 0.1. -/
def points (values : List ℚ) : List DataPoint :=
  values.mapIdx fun index value => ⟨((index + 1 : Nat) : ℚ) * (1 / 10), value⟩

/-- One more value is a tenth of a second later. -/
theorem points_concat (values : List ℚ) (value : ℚ) :
    points (values ++ [value]) =
      points values ++ [⟨((values.length + 1 : Nat) : ℚ) * (1 / 10), value⟩] :=
  List.mapIdx_concat

/-- Every value is a point. -/
theorem points_length (values : List ℚ) : (points values).length = values.length :=
  List.length_mapIdx

/-- The points have the values which were logged. -/
theorem map_yValue_points (values : List ℚ) : (points values).map (·.yValue) = values := by
  induction values using List.reverseRecOn with
  | nil => rfl
  | append_singleton values value ih =>
      rw [points_concat, List.map_append, ih]
      rfl

/-- The graph shows the values logged since a reset. -/
structure Shows (values : List ℚ) (graph : GraphData) : Prop where
  time : graph.currentTime = (values.length : ℚ) * (1 / 10)
  data : graph.data = (points values).rtake dataPointsToKeep
  listStore : graph.listStore = (points values).map fun point => ⟨point.xTime, point.yValue⟩
  newest : values ≠ [] → graph.maxX = (values.length : ℚ) * (1 / 10)
  scaled : values ≠ [] → graph.maxY = GraphData.headroom graph.data

variable {values : List ℚ} {graph : GraphData}

/-- A new window shows nothing. -/
theorem shows_initial : Shows [] .initial where
  time := by simp [GraphData.initial]
  data := rfl
  listStore := rfl
  newest := fun some => absurd rfl some
  scaled := fun some => absurd rfl some

/-- A reset window shows nothing. -/
theorem Shows.reset (graph : GraphData) : Shows [] graph.resetGraphData where
  time := by simp [GraphData.resetGraphData]
  data := rfl
  listStore := rfl
  newest := fun some => absurd rfl some
  scaled := fun some => absurd rfl some

/-- A value more is shown. -/
theorem Shows.log (shows : Shows values graph) (value : ℚ) :
    Shows (values ++ [value]) (graph.logNewData value) := by
  have time : graph.currentTime + 1 / 10 = ((values.length + 1 : Nat) : ℚ) * (1 / 10) := by
    rw [shows.time]
    push_cast
    ring
  exact {
    time := by simpa [GraphData.logNewData] using time
    data := by
      rw [points_concat, ← slide_rtake, ← shows.data, ← time]
      rfl
    listStore := by
      rw [points_concat, List.map_append, ← shows.listStore, ← time]
      rfl
    newest := fun _ => by simpa [GraphData.logNewData] using time
    scaled := fun _ => rfl }

/-- A call which changes the plotted data. -/
inductive GraphCall where
  | logNewData (primaryVal : ℚ)
  | resetGraphData
deriving DecidableEq

namespace GraphCall

/-- A call and what it does. -/
def apply (graph : GraphData) : GraphCall → GraphData
  | .logNewData primaryVal => graph.logNewData primaryVal
  | .resetGraphData => graph.resetGraphData

/-- The graph after the calls, from its initial state. -/
def run (calls : List GraphCall) : GraphData := calls.foldl apply .initial

/-- The values logged so far, once the call has been made. -/
def loggedAfter (values : List ℚ) : GraphCall → List ℚ
  | .logNewData primaryVal => values ++ [primaryVal]
  | .resetGraphData => []

/-- The values logged since the last reset. -/
def logged (calls : List GraphCall) : List ℚ := calls.foldl loggedAfter []

end GraphCall

/-- Every call keeps the window on the log. -/
theorem Shows.apply (shows : Shows values graph) (call : GraphCall) :
    Shows (call.loggedAfter values) (call.apply graph) := by
  cases call with
  | logNewData primaryVal => exact shows.log primaryVal
  | resetGraphData => exact .reset graph

/-- The window shows the log after any calls, by induction on them. -/
theorem shows_run (calls : List GraphCall) :
    Shows (GraphCall.logged calls) (GraphCall.run calls) := by
  induction calls using List.reverseRecOn with
  | nil => exact shows_initial
  | append_singleton calls call ih =>
      rw [GraphCall.logged, GraphCall.run, List.foldl_concat, List.foldl_concat]
      exact ih.apply call

/-! ## Drawing -/

/-- `margin_left`. -/
def marginLeft : Int := 60

/-- `margin_right`. -/
def marginRight : Int := 20

/-- `margin_top`. -/
def marginTop : Int := 20

/-- `margin_bottom`. -/
def marginBottom : Int := 40

/-- `graph_width`. -/
def graphWidth (width : Int) : Int := width - marginLeft - marginRight

/-- `graph_height`. -/
def graphHeight (height : Int) : Int := height - marginTop - marginBottom

/-- A point of the widget. -/
structure ScreenPoint where
  screenX : ℚ
  screenY : ℚ
deriving DecidableEq

/-- `graph_width / max_x` and `graph_height / max_y`, or 0. -/
def scale (extent : Int) (largest : ℚ) : ℚ := if 0 < largest then extent / largest else 0

/-- Where a widget of this size draws a point. -/
def toScreen (width height : Int) (graph : GraphData) (point : DataPoint) : ScreenPoint where
  screenX := marginLeft + point.xTime * scale (graphWidth width) graph.maxX
  screenY := marginTop + graphHeight height - point.yValue * scale (graphHeight height) graph.maxY

/-- What the trace is drawn with: strokes between neighbours, and dots. -/
inductive Mark where
  | stroke (previous next : ScreenPoint)
  | dot (centre : ScreenPoint)
deriving DecidableEq

/-- The first loop over the trace; `previous` is absent while `first_point` is set. -/
def strokes : Option ScreenPoint → List ScreenPoint → List Mark
  | _, [] => []
  | none, point :: rest => strokes (some point) rest
  | some previous, point :: rest => .stroke previous point :: strokes (some point) rest

/-- The trace as `on_draw_event` draws it: the strokes first, then a dot at every point. -/
def onDrawEvent (width height : Int) (graph : GraphData) : List Mark :=
  let screen := graph.data.map (toScreen width height graph)
  strokes none screen ++ screen.map .dot

/-- The plot rectangle of a widget. -/
structure InPlot (width height : Int) (point : ScreenPoint) : Prop where
  left : marginLeft ≤ point.screenX
  right : point.screenX ≤ marginLeft + graphWidth width
  top : marginTop ≤ point.screenY
  bottom : point.screenY ≤ marginTop + graphHeight height

/-- A value between zero and the largest is scaled into the extent. -/
theorem scaled_mem {extent : Int} {largest value : ℚ} (positive : 0 < extent)
    (largestPos : 0 < largest) (nonneg : 0 ≤ value) (below : value ≤ largest) :
    0 ≤ value * scale extent largest ∧ value * scale extent largest ≤ extent := by
  have extentPos : (0 : ℚ) < extent := by exact_mod_cast positive
  rw [scale, if_pos largestPos]
  constructor
  · positivity
  · calc value * (extent / largest) = extent * (value / largest) := by ring
      _ ≤ extent * 1 := by
          apply mul_le_mul_of_nonneg_left _ extentPos.le
          exact (div_le_one largestPos).mpr below
      _ = extent := mul_one _

/-- The times of the points go up to that of the newest. -/
theorem mem_points {values : List ℚ} {point : DataPoint} (member : point ∈ points values) :
    0 ≤ point.xTime ∧ point.xTime ≤ (values.length : ℚ) * (1 / 10) := by
  obtain ⟨index, inside, rfl⟩ := List.mem_mapIdx.mp member
  have bound : ((index + 1 : Nat) : ℚ) ≤ values.length := by exact_mod_cast inside
  refine ⟨by positivity, ?_⟩
  dsimp only
  linarith

/-- What is kept are points of the log. -/
theorem Shows.mem_points (shows : Shows values graph) {point : DataPoint}
    (member : point ∈ graph.data) : point ∈ points values := by
  rw [shows.data] at member
  exact List.mem_of_mem_drop member

/-- Where a point is kept, something was logged. -/
theorem Shows.ne_nil (shows : Shows values graph) {point : DataPoint}
    (member : point ∈ graph.data) : values ≠ [] := by
  rintro rfl
  cases shows.mem_points member

/-- A point whose value is not negative lies in the plot. -/
theorem Shows.toScreen_inPlot (shows : Shows values graph) {width height : Int}
    (positiveWidth : 0 < graphWidth width) (positiveHeight : 0 < graphHeight height)
    {point : DataPoint} (member : point ∈ graph.data) (nonneg : 0 ≤ point.yValue) :
    InPlot width height (toScreen width height graph point) := by
  have some := shows.ne_nil member
  have maxX := shows.newest some
  have maxY := shows.scaled some
  obtain ⟨timeNonneg, timeBelow⟩ := MotorStand.mem_points (shows.mem_points member)
  have lengthPos : (0 : ℚ) < values.length := by
    exact_mod_cast List.length_pos_of_ne_nil some
  have horizontal := scaled_mem positiveWidth (by rw [maxX]; positivity) timeNonneg
    (timeBelow.trans maxX.ge)
  have maxYPos : 0 < graph.maxY := by
    rw [maxY]
    exact GraphData.headroom_pos _
  have below : point.yValue ≤ graph.maxY := by
    have kept := GraphData.yValue_le_headroom member
    rw [← maxY] at kept
    apply kept.trans
    exact div_le_self maxYPos.le (by norm_num)
  have vertical := scaled_mem positiveHeight maxYPos nonneg below
  exact {
    left := by simp only [toScreen]; linarith
    right := by simp only [toScreen]; linarith
    top := by simp only [toScreen]; linarith
    bottom := by simp only [toScreen]; linarith }

/-- What the window shows of the values logged since the last reset. -/
structure PlotFollows (values : List ℚ) (graph : GraphData) : Prop where
  kept : graph.data = (points values).rtake dataPointsToKeep
  count : graph.data.length = min values.length dataPointsToKeep
  keptValues : graph.data.map (·.yValue) = values.rtake dataPointsToKeep
  table : graph.listStore = (points values).map fun point => ⟨point.xTime, point.yValue⟩
  newest : values ≠ [] → graph.maxX = (values.length : ℚ) * (1 / 10)
  positive : values ≠ [] → 0 < graph.maxY
  headroom : ∀ point ∈ graph.data, point.yValue ≤ graph.maxY / (11 / 10)
  drawn : ∀ width height, 0 < graphWidth width → 0 < graphHeight height →
    ∀ point ∈ graph.data, 0 ≤ point.yValue →
      .dot (toScreen width height graph point) ∈ onDrawEvent width height graph ∧
        InPlot width height (toScreen width height graph point)

/-- After any calls, the graph follows the values logged since the last reset. -/
theorem plot_follows_log (calls : List GraphCall) :
    PlotFollows (GraphCall.logged calls) (GraphCall.run calls) := by
  have shows := shows_run calls
  exact {
    kept := shows.data
    count := by rw [shows.data, length_rtake, points_length]
    keptValues := by rw [shows.data, map_rtake, map_yValue_points]
    table := shows.listStore
    newest := shows.newest
    positive := fun some => by
      rw [shows.scaled some]
      exact GraphData.headroom_pos _
    headroom := fun point member => by
      rw [shows.scaled (shows.ne_nil member)]
      exact GraphData.yValue_le_headroom member
    drawn := fun width height positiveWidth positiveHeight point member nonneg => by
      refine ⟨?_, shows.toScreen_inPlot positiveWidth positiveHeight member nonneg⟩
      apply List.mem_append_right
      exact List.mem_map_of_mem (List.mem_map_of_mem member) }

end MotorStand
