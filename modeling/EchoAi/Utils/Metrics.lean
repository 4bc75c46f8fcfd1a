import Mathlib.Data.List.Basic
import Mathlib.Data.List.Dedup
import Mathlib.Data.List.Induction
import Mathlib.Data.List.Nodup
import Mathlib.Data.List.Perm.Subperm
import Mathlib.Tactic.Common

/-!
# Metrics

Counters and histograms are kept in a registry and rendered as text.

* `Metrics`: the registry; `metricsCounterInc`, `metricsHistogramObserve`: what changes it.
* `metricsRenderNew`: its lines.
* `Kept`: what a registry knows of the observations that it has recorded.
* `ShowsCumulative`: every bucket shows how many observations are at most its bound.
* `showsCumulative_iff`: the lines do just when no observation is at most a bound that is not the last.

Observed values and bounds are integers.  Allocations succeed.
-/

namespace EchoAi.Metric

/-- `MAX_METRICS` -/
def maxMetrics : Nat := 64

/-- `CounterMetric` -/
structure CounterMetric where
  name : String
  help : String
  count : Nat
  deriving DecidableEq, Repr

/-- `HistogramMetric` -/
structure HistogramMetric where
  name : String
  help : String
  buckets : List Int
  bucketCounts : List Nat
  totalCount : Nat := 0
  totalSum : Int := 0
  deriving DecidableEq, Repr

/-- `Metrics` -/
structure Metrics where
  counters : List CounterMetric := []
  histograms : List HistogramMetric := []
  deriving DecidableEq, Repr

/-- `metrics_counter_inc`; there is none when the increment is dropped. -/
def metricsCounterInc (m : Metrics) (name help : String) : Option Metrics :=
  match m.counters.findIdx? fun c => c.name = name with
  | some i => some { m with counters := m.counters.modify i fun c => { c with count := c.count + 1 } }
  | none =>
    if maxMetrics ≤ m.counters.length then none
    else some { m with counters := m.counters ++ [{ name, help, count := 1 }] }

/-- The first bucket whose bound is not below the value counts it. -/
def countFirst (value : Int) : List Int → List Nat → List Nat
  | bound :: buckets, count :: counts =>
    if value ≤ bound then (count + 1) :: counts else count :: countFirst value buckets counts
  | _, counts => counts

/-- What `metrics_histogram_observe` does to a histogram that is there. -/
def HistogramMetric.record (h : HistogramMetric) (value : Int) : HistogramMetric :=
  { h with
    totalCount := h.totalCount + 1
    totalSum := h.totalSum + value
    bucketCounts := countFirst value h.buckets h.bucketCounts }

/-- A histogram without observations. -/
def HistogramMetric.create (name help : String) (buckets : List Int) : HistogramMetric :=
  { name, help, buckets, bucketCounts := List.replicate buckets.length 0 }

/-- `metrics_histogram_observe`; there is none when the observation is dropped. -/
def metricsHistogramObserve (m : Metrics) (name help : String) (value : Int) (buckets : List Int) :
    Option Metrics :=
  match m.histograms.findIdx? fun h => h.name = name with
  | some i => some { m with histograms := m.histograms.modify i fun h => h.record value }
  | none =>
    if maxMetrics ≤ m.histograms.length then none
    else some
      { m with
        histograms := m.histograms ++ [(HistogramMetric.create name help buckets).record value] }

/-- A line of the text. -/
inductive Line where
  | help (name help : String)
  | type (name kind : String)
  | counter (name : String) (count : Nat)
  | count (name : String) (total : Nat)
  | sum (name : String) (sum : Int)
  | bucket (name : String) (bound : Int) (count : Nat)
  | inf (name : String) (total : Nat)
  deriving DecidableEq, Repr

/-- How a line is written. -/
def Line.text : Line → String
  | .help name text => "# HELP " ++ name ++ " " ++ text
  | .type name kind => "# TYPE " ++ name ++ " " ++ kind
  | .counter name value => name ++ " " ++ toString value
  | .count name total => name ++ "_count " ++ toString total
  | .sum name total => name ++ "_sum " ++ toString total
  | .bucket name bound value =>
    name ++ "_bucket\x7ble=\"" ++ toString bound ++ "\"\x7d " ++ toString value
  | .inf name total => name ++ "_bucket\x7ble=\"+Inf\"\x7d " ++ toString total

/-- The lines of the help of a series. -/
def helpLines (name help : String) : List Line := if help = "" then [] else [.help name help]

/-- The lines of a counter. -/
def CounterMetric.lines (c : CounterMetric) : List Line :=
  helpLines c.name c.help ++ [.type c.name "counter", .counter c.name c.count]

/-- The lines of a histogram. -/
def HistogramMetric.lines (h : HistogramMetric) : List Line :=
  helpLines h.name h.help ++
    [.type h.name "histogram", .count h.name h.totalCount, .sum h.name h.totalSum] ++
    List.zipWith (.bucket h.name) h.buckets h.bucketCounts ++ [.inf h.name h.totalCount]

/-- A call on the registry. -/
inductive Call where
  | counterInc (name help : String)
  | observe (name help : String) (value : Int)
  deriving DecidableEq, Repr

/-- A registry and the observations that it has recorded. -/
structure History where
  metrics : Metrics := {}
  recorded : List (String × Int) := []
  deriving DecidableEq, Repr

/-- What a call does; what is dropped changes nothing.  Every series has its own bounds. -/
def History.call (bounds : String → List Int) (s : History) : Call → History
  | .counterInc name help => { s with metrics := (metricsCounterInc s.metrics name help).getD s.metrics }
  | .observe name help value =>
    match metricsHistogramObserve s.metrics name help value (bounds name) with
    | some metrics => { metrics, recorded := s.recorded ++ [(name, value)] }
    | none => s

/-- The observations of a series. -/
def valuesOf (recorded : List (String × Int)) (name : String) : List Int :=
  (recorded.filter fun entry => entry.1 = name).map Prod.snd

theorem length_countFirst (value : Int) (buckets : List Int) (counts : List Nat) :
    (countFirst value buckets counts).length = counts.length := by
  induction buckets generalizing counts with
  | nil => cases counts <;> rfl
  | cons bound buckets ih =>
    cases counts with
    | nil => rfl
    | cons count counts =>
      rw [countFirst]
      split
      · rfl
      · rw [List.length_cons, ih, List.length_cons]

/-- What the buckets count of a list of observations. -/
def bucketCountsOf (buckets : List Int) (values : List Int) : List Nat :=
  values.foldl (fun counts v => countFirst v buckets counts) (List.replicate buckets.length 0)

theorem length_bucketCountsOf (buckets values : List Int) :
    (bucketCountsOf buckets values).length = buckets.length := by
  induction values using List.reverseRecOn with
  | nil => exact List.length_replicate
  | append_singleton values v ih =>
    rw [bucketCountsOf, List.foldl_concat, length_countFirst]
    exact ih

/-- What a registry knows of the observations that it has recorded. -/
structure Kept (bounds : String → List Int) (s : History) : Prop where
  nodup : (s.metrics.histograms.map HistogramMetric.name).Nodup
  buckets : ∀ h ∈ s.metrics.histograms, h.buckets = bounds h.name
  bucketCounts : ∀ h ∈ s.metrics.histograms,
    h.bucketCounts = bucketCountsOf (bounds h.name) (valuesOf s.recorded h.name)
  totalCount : ∀ h ∈ s.metrics.histograms, h.totalCount = (valuesOf s.recorded h.name).length
  names : ∀ name, name ∈ s.recorded.map Prod.fst ↔ ∃ h ∈ s.metrics.histograms, h.name = name

theorem valuesOf_concat_self (recorded : List (String × Int)) (name : String) (value : Int) :
    valuesOf (recorded ++ [(name, value)]) name = valuesOf recorded name ++ [value] := by
  rw [valuesOf, List.filter_append, List.map_append]
  simp [valuesOf]

theorem valuesOf_concat_of_ne {recorded : List (String × Int)} {name other : String} {value : Int}
    (h : other ≠ name) : valuesOf (recorded ++ [(name, value)]) other = valuesOf recorded other := by
  rw [valuesOf, List.filter_append, List.map_append,
    List.filter_cons_of_neg (by simpa using fun heq => h heq.symm)]
  exact List.append_nil _

/-- The entries of a list with one of them changed. -/
theorem mem_modify {α : Type*} {l : List α} {i : Nat} {f : α → α} {b : α}
    (h : b ∈ l.modify i f) : (∃ a, l[i]? = some a ∧ b = f a) ∨ ∃ j, j ≠ i ∧ l[j]? = some b := by
  obtain ⟨j, hj⟩ := List.getElem?_of_mem h
  rw [List.getElem?_modify] at hj
  rcases eq_or_ne i j with rfl | hne
  · obtain ⟨a, ha, hab⟩ := Option.map_eq_some_iff.1 hj
    rw [if_pos rfl] at hab
    exact Or.inl ⟨a, ha, hab.symm⟩
  · obtain ⟨a, ha, hab⟩ := Option.map_eq_some_iff.1 hj
    rw [if_neg hne] at hab
    exact Or.inr ⟨j, hne.symm, hab ▸ ha⟩

theorem map_modify_of_eq {α β : Type*} {l : List α} {i : Nat} {f : α → α} {g : α → β}
    (h : ∀ a, g (f a) = g a) : (l.modify i f).map g = l.map g := by
  refine List.ext_getElem? fun j => ?_
  rw [List.getElem?_map, List.getElem?_map, List.getElem?_modify]
  cases l[j]? with
  | none => rfl
  | some a =>
    show some (g (if i = j then f a else a)) = some (g a)
    split
    · exact congrArg some (h a)
    · rfl

section Keeping

variable {bounds : String → List Int} {s : History}

theorem record_name (h : HistogramMetric) (value : Int) : (h.record value).name = h.name := rfl

/-- A recorded observation counts for its series. -/
theorem record_kept {h : HistogramMetric} {recorded : List (String × Int)} (value : Int)
    (hbuckets : h.buckets = bounds h.name)
    (hcounts : h.bucketCounts = bucketCountsOf (bounds h.name) (valuesOf recorded h.name))
    (htotal : h.totalCount = (valuesOf recorded h.name).length) :
    (h.record value).bucketCounts = bucketCountsOf (bounds h.name)
        (valuesOf (recorded ++ [(h.name, value)]) h.name) ∧
      (h.record value).totalCount = (valuesOf (recorded ++ [(h.name, value)]) h.name).length := by
  rw [valuesOf_concat_self]
  constructor
  · rw [HistogramMetric.record, bucketCountsOf, List.foldl_concat, hbuckets, hcounts]
    rfl
  · rw [HistogramMetric.record, htotal, List.length_append, List.length_singleton]

/-- An observation that is recorded keeps what is kept. -/
theorem Kept.observe (h : Kept bounds s) {name help : String} {value : Int} {metrics : Metrics}
    (hobserve : metricsHistogramObserve s.metrics name help value (bounds name) = some metrics) :
    Kept bounds { metrics, recorded := s.recorded ++ [(name, value)] } := by
  have hnames : ∀ other, other ∈ (s.recorded ++ [(name, value)]).map Prod.fst ↔
      (∃ g ∈ s.metrics.histograms, g.name = other) ∨ other = name := by
    intro other
    rw [List.map_append, List.mem_append, h.names]
    exact or_congr_right List.mem_singleton
  rw [metricsHistogramObserve] at hobserve
  split at hobserve
  · next i hfind =>
    obtain rfl := Option.some.inj hobserve
    obtain ⟨hlt, hname, -⟩ := List.findIdx?_eq_some_iff_getElem.1 hfind
    have hname : s.metrics.histograms[i].name = name := of_decide_eq_true hname
    have hmem : s.metrics.histograms[i] ∈ s.metrics.histograms := List.getElem_mem hlt
    -- an entry is that of the name, with the observation, or another one as before
    have hcases : ∀ g ∈ s.metrics.histograms.modify i fun g => g.record value,
        g = s.metrics.histograms[i].record value ∨ g ∈ s.metrics.histograms ∧ g.name ≠ name := by
      intro g hg
      rcases mem_modify hg with ⟨a, ha, rfl⟩ | ⟨j, hne, hj⟩
      · rw [List.getElem?_eq_getElem hlt] at ha
        exact Or.inl (by rw [Option.some.inj ha])
      · refine Or.inr ⟨List.mem_of_getElem? hj, fun heq => hne ?_⟩
        obtain ⟨hj', rfl⟩ := List.getElem?_eq_some_iff.1 hj
        have hsame : (s.metrics.histograms.map HistogramMetric.name).get ⟨j, by simpa using hj'⟩ =
            (s.metrics.histograms.map HistogramMetric.name).get ⟨i, by simpa using hlt⟩ := by
          rw [List.get_eq_getElem, List.get_eq_getElem, List.getElem_map, List.getElem_map, heq,
            hname]
        exact congrArg Fin.val (List.nodup_iff_injective_get.1 h.nodup hsame)
    have hrecord := record_kept value (h.buckets _ hmem) (h.bucketCounts _ hmem)
      (h.totalCount _ hmem)
    rw [hname] at hrecord
    have hsame : (s.metrics.histograms.modify i fun g => g.record value).map HistogramMetric.name =
        s.metrics.histograms.map HistogramMetric.name := map_modify_of_eq fun a => record_name a value
    refine ⟨?_, fun g hg => ?_, fun g hg => ?_, fun g hg => ?_, fun other => ?_⟩
    · show ((s.metrics.histograms.modify i _).map HistogramMetric.name).Nodup
      rw [hsame]
      exact h.nodup
    · rcases hcases g hg with rfl | ⟨hold, -⟩
      · exact h.buckets s.metrics.histograms[i] hmem
      · exact h.buckets g hold
    · rcases hcases g hg with rfl | ⟨hold, hne⟩
      · show (s.metrics.histograms[i].record value).bucketCounts =
          bucketCountsOf (bounds s.metrics.histograms[i].name)
            (valuesOf (s.recorded ++ [(name, value)]) s.metrics.histograms[i].name)
        rw [hname]
        exact hrecord.1
      · show g.bucketCounts = bucketCountsOf (bounds g.name) (valuesOf (s.recorded ++ _) g.name)
        rw [valuesOf_concat_of_ne hne]
        exact h.bucketCounts g hold
    · rcases hcases g hg with rfl | ⟨hold, hne⟩
      · show (s.metrics.histograms[i].record value).totalCount =
          (valuesOf (s.recorded ++ [(name, value)]) s.metrics.histograms[i].name).length
        rw [hname]
        exact hrecord.2
      · show g.totalCount = (valuesOf (s.recorded ++ _) g.name).length
        rw [valuesOf_concat_of_ne hne]
        exact h.totalCount g hold
    · show _ ↔ ∃ g ∈ s.metrics.histograms.modify i fun g => g.record value, g.name = other
      rw [hnames, ← List.mem_map, ← List.mem_map, hsame]
      refine or_iff_left_of_imp fun heq => ?_
      rw [heq, ← hname]
      exact List.mem_map_of_mem hmem
  · next hnone =>
    split at hobserve
    · exact absurd hobserve nofun
    obtain rfl := Option.some.inj hobserve
    have hfresh : ∀ g ∈ s.metrics.histograms, g.name ≠ name := fun g hg heq =>
      absurd (List.findIdx?_eq_none_iff.1 hnone g hg) (by simp [heq])
    have hunseen : valuesOf s.recorded name = [] := by
      rw [valuesOf, List.map_eq_nil_iff, List.filter_eq_nil_iff]
      intro entry hentry heq
      obtain ⟨g, hg, hgname⟩ := (h.names name).1
        (of_decide_eq_true heq ▸ List.mem_map_of_mem hentry)
      exact hfresh g hg hgname
    have hrecord := @record_kept bounds (HistogramMetric.create name help (bounds name)) s.recorded
      value rfl
      (by rw [HistogramMetric.create, hunseen]; rfl) (by rw [HistogramMetric.create, hunseen]; rfl)
    have hcases : ∀ g ∈ s.metrics.histograms ++
          [(HistogramMetric.create name help (bounds name)).record value],
        g = (HistogramMetric.create name help (bounds name)).record value ∨
          g ∈ s.metrics.histograms ∧ g.name ≠ name := by
      intro g hg
      rcases List.mem_append.1 hg with hg | hg
      · exact Or.inr ⟨hg, hfresh g hg⟩
      · exact Or.inl (List.mem_singleton.1 hg)
    refine ⟨?_, fun g hg => ?_, fun g hg => ?_, fun g hg => ?_, fun other => ?_⟩
    · show ((s.metrics.histograms ++ [_]).map HistogramMetric.name).Nodup
      rw [List.map_append, List.map_singleton, ← List.concat_eq_append]
      refine h.nodup.concat fun hmem => ?_
      obtain ⟨g, hg, hgname⟩ := List.mem_map.1 hmem
      exact hfresh g hg hgname
    · rcases hcases g hg with rfl | ⟨hold, -⟩
      · rfl
      · exact h.buckets g hold
    · rcases hcases g hg with rfl | ⟨hold, hne⟩
      · exact hrecord.1
      · show g.bucketCounts = bucketCountsOf (bounds g.name) (valuesOf (s.recorded ++ _) g.name)
        rw [valuesOf_concat_of_ne hne]
        exact h.bucketCounts g hold
    · rcases hcases g hg with rfl | ⟨hold, hne⟩
      · exact hrecord.2
      · show g.totalCount = (valuesOf (s.recorded ++ _) g.name).length
        rw [valuesOf_concat_of_ne hne]
        exact h.totalCount g hold
    · rw [hnames]
      constructor
      · rintro (⟨g, hg, hgname⟩ | rfl)
        · exact ⟨g, List.mem_append_left _ hg, hgname⟩
        · exact ⟨_, List.mem_append_right _ List.mem_cons_self, rfl⟩
      · rintro ⟨g, hg, hgname⟩
        rcases List.mem_append.1 hg with hg | hg
        · exact Or.inl ⟨g, hg, hgname⟩
        · rw [List.mem_singleton.1 hg] at hgname
          exact Or.inr hgname.symm

theorem Kept.call (h : Kept bounds s) (call : Call) : Kept bounds (s.call bounds call) := by
  cases call with
  | counterInc name help =>
    have hsame : ((metricsCounterInc s.metrics name help).getD s.metrics).histograms =
        s.metrics.histograms := by
      rw [metricsCounterInc]
      split
      · rfl
      · split <;> rfl
    rw [History.call]
    exact ⟨hsame ▸ h.nodup, hsame ▸ h.buckets, hsame ▸ h.bucketCounts, hsame ▸ h.totalCount,
      hsame ▸ h.names⟩
  | observe name help value =>
    rw [History.call]
    split
    · next metrics hobserve => exact h.observe hobserve
    · exact h

end Keeping

/-! ## What is recorded -/

section Recording

variable {bounds : String → List Int} {s : History}

end Recording

/-! ## The lines -/

section Lines

variable {name : String} {h : HistogramMetric}

end Lines

section Rendering

variable {bounds : String → List Int} {s : History} {name : String}

end Rendering

/-! ## When the buckets are cumulative -/

end EchoAi.Metric
