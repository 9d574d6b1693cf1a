import Defcoin.Framework.Outcome
import Defcoin.Framework.SlidingMedian
import Mathlib.Algebra.Order.Ring.Int

/-! # Time samples of peers

  `AddTimeData` counts one sample of each source, 200 at most, and sets the offset to their median
  whenever their number, with the sample 0 that the filter begins with, is odd. That sample leaves
  the filter with the last one, when no offset is set any more.
-/

namespace Defcoin

open List Outcome Prod

/-- `CMedianFilter<int64_t>` -/
structure CMedianFilter where
  vValues : List Int
  vSorted : List Int
  nSize : Nat

namespace CMedianFilter
variable (f : CMedianFilter)

def input (value : Int) : CMedianFilter :=
  let vValues := (if f.vValues.length = f.nSize then f.vValues.tail else f.vValues) ++ [value]
  { f with vValues := vValues, vSorted := vValues.insertionSort (· ≤ ·) }

def median : Except String Int :=
  let vSortedSize := f.vSorted.length
  if vSortedSize = 0 then .error "vSortedSize > 0"
  else if vSortedSize % 2 = 1 then .ok (f.vSorted.getD (vSortedSize / 2) 0)
  else .ok ((f.vSorted.getD (vSortedSize / 2 - 1) 0 + f.vSorted.getD (vSortedSize / 2) 0).tdiv 2)

end CMedianFilter

/-- The state of `AddTimeData`, with sources `ι`. -/
structure TimeData (ι : Type) where
  setKnown : List ι
  vTimeOffsets : CMedianFilter
  nTimeOffset : Int
  fDone : Bool
  miscWarning : Option String

namespace TimeData
variable {ι : Type} [DecidableEq ι]

def maxSamples : Nat := 200

def new : TimeData ι := ⟨[], ⟨[0], [0], maxSamples⟩, 0, false, none⟩

def strMessage : String := "Please check that your computer's date and time are correct! If your clock is wrong, Defcoin Core Nu will not work properly."

/-- `AddTimeData`, with the value of `-maxtimeadjustment` -/
def addTimeData (maxtimeadjustment : Int) (s : TimeData ι) (call : ι × Int) : Except String (TimeData ι) :=
  if s.setKnown.length = maxSamples then .ok s
  else if call.1 ∈ s.setKnown then .ok s
  else
    let f := s.vTimeOffsets.input call.2
    let s := { s with setKnown := s.setKnown ++ [call.1], vTimeOffsets := f }
    if f.vValues.length ≥ 5 ∧ f.vValues.length % 2 = 1 then do
      let nMedian ← f.median
      let max_adjustment := max 0 maxtimeadjustment
      if nMedian ≥ -max_adjustment ∧ nMedian ≤ max_adjustment then .ok { s with nTimeOffset := nMedian }
      else
        let fMatch := f.vSorted.any fun nOffset => nOffset ≠ 0 ∧ nOffset > -5 * 60 ∧ nOffset < 5 * 60
        if s.fDone ∨ fMatch then .ok { s with nTimeOffset := 0 }
        else .ok { s with nTimeOffset := 0, fDone := true, miscWarning := some strMessage }
    else .ok s

/-- A call is counted if it is the first one of its source, and there is room. -/
def count (samples : List (ι × Int)) (call : ι × Int) : List (ι × Int) :=
  if samples.length = maxSamples ∨ call.1 ∈ samples.map fst then samples else samples ++ [call]

def samples (calls : List (ι × Int)) : List (ι × Int) := calls.foldl count []

/-- The next call sets the offset. -/
def Sets (s : TimeData ι) (call : ι × Int) : Prop :=
  s.setKnown.length ≠ maxSamples ∧ call.1 ∉ s.setKnown ∧
    (s.vTimeOffsets.input call.2).vValues.length ≥ 5 ∧ (s.vTimeOffsets.input call.2).vValues.length % 2 = 1

/-- The samples of honest sources, and the one of the filter. -/
def honestSamples (honest : ι → Bool) (L : List (ι × Int)) : List Int := 0 :: (L.filter (honest ·.1)).map snd

def middle (L : List (ι × Int)) : Int :=
  ((0 :: L.map snd).insertionSort (· ≤ ·)).getD ((L.length + 1) / 2) 0

/-- Fewer than half of the samples do not take the offset out of the range of the others. -/
def Outvoted (L : List (ι × Int)) (nTimeOffset : Int) : Prop :=
  ∀ honest : ι → Bool, 2 * (L.filter (!honest ·.1)).length < L.length + 1 → nTimeOffset = 0 ∨
    (∃ a ∈ honestSamples honest L, a ≤ nTimeOffset) ∧ ∃ b ∈ honestSamples honest L, nTimeOffset ≤ b

/-- What holds after calls of which `L` were counted. -/
structure Counted (m : Int) (L : List (ι × Int)) (s : TimeData ι) : Prop where
  known : s.setKnown = L.map fst
  nodup : s.setKnown.Nodup
  le : s.setKnown.length ≤ maxSamples
  size : s.vTimeOffsets.nSize = maxSamples
  values : L.length < maxSamples → s.vTimeOffsets.vValues = 0 :: L.map snd
  offset : s.nTimeOffset ≥ -max 0 m ∧ s.nTimeOffset ≤ max 0 m

variable {m : Int} {L : List (ι × Int)} {s : TimeData ι}

omit [DecidableEq ι] in
/-- By counting: at most half of the samples are below the median, and at most half above it. -/
theorem outvoted_middle (hodd : (L.length + 1) % 2 = 1) : Outvoted L (middle L) := by
  intro honest hfew
  have hperm : (0 :: L.map snd).Perm (honestSamples honest L ++ (L.filter (!honest ·.1)).map snd) := by
    rw [honestSamples, cons_append, ← map_append]
    exact ((filter_append_perm _ L).symm.map _).cons 0
  have hlength := hperm.length_eq
  have hk : (L.length + 1) / 2 < ((0 :: L.map snd).insertionSort (· ≤ ·)).length := by
    rw [length_insertionSort, length_cons, length_map]
    omega
  have hcount : ∀ m, m ≤ middle L ↔ (honestSamples honest L).countP (· < m) +
      ((L.filter (!honest ·.1)).map snd).countP (· < m) ≤ (L.length + 1) / 2 := by
    intro m
    rw [middle, getD_eq_getElem _ _ hk, SlidingMedian.le_getElem_iff (pairwise_insertionSort _ _) hk,
      ((perm_insertionSort _ _).trans hperm).countP_eq, countP_append]
  rw [length_append, length_map, length_cons, length_map] at hlength
  refine .inr ⟨?_, ?_⟩
  -- were all honest samples above the median, it would be larger
  · by_contra hnone
    have hgood : (honestSamples honest L).countP (· < middle L + 1) = 0 := by
      rw [countP_eq_zero]
      intro a ha hlt
      exact hnone ⟨a, ha, by simpa [Int.lt_add_one_iff] using hlt⟩
    have hbad := countP_le_length (p := (· < middle L + 1)) (l := (L.filter (!honest ·.1)).map snd)
    rw [length_map] at hbad
    have := (hcount (middle L + 1)).mpr (by omega)
    omega
  -- were all of them below it, it would be smaller
  · by_contra hnone
    have hgood : (honestSamples honest L).countP (· < middle L) = (honestSamples honest L).length := by
      rw [countP_eq_length]
      intro b hb
      by_contra hlt
      exact hnone ⟨b, hb, by simpa using hlt⟩
    have := (hcount (middle L)).mp le_rfl
    omega

theorem Counted.step (hs : Counted m L s) (call : ι × Int) : Succeeds (s.addTimeData m call) fun s' =>
    Counted m (count L call) s' ∧ (s.Sets call → Outvoted (count L call) s'.nTimeOffset) := by
  have hlength : s.setKnown.length = L.length := by rw [hs.known, length_map]
  unfold count
  rw [← hs.known, ← hlength]
  by_cases hfull : s.setKnown.length = maxSamples
  · rw [addTimeData, if_pos hfull, if_pos (.inl hfull)]
    exact .ok ⟨hs, fun hsets => absurd hfull hsets.1⟩
  by_cases hknown : call.1 ∈ s.setKnown
  · rw [addTimeData, if_neg hfull, if_pos hknown, if_pos (.inr hknown)]
    exact .ok ⟨hs, fun hsets => absurd hknown hsets.2.1⟩
  have hlt := lt_of_le_of_ne hs.le hfull
  have hinput : (s.vTimeOffsets.input call.2).vValues =
      if L.length + 1 = maxSamples then (L ++ [call]).map snd else 0 :: (L ++ [call]).map snd := by
    simp only [CMedianFilter.input, hs.values (hlength ▸ hlt), hs.size, length_cons, length_map]
    split_ifs <;> simp
  have hnext : ∀ o d w, o ≥ -max 0 m ∧ o ≤ max 0 m →
      Counted m (L ++ [call]) ⟨s.setKnown ++ [call.1], s.vTimeOffsets.input call.2, o, d, w⟩ := by
    intro o d w ho
    refine ⟨by simp [hs.known], ?_, by simp; omega, hs.size, fun h => ?_, ho⟩
    · exact concat_eq_append ▸ hs.nodup.concat hknown
    · rw [length_append] at h
      exact hinput.trans (if_neg h.ne)
  rw [addTimeData, if_neg hfull, if_neg hknown, if_neg (not_or.mpr ⟨hfull, hknown⟩)]
  dsimp only
  split
  · next hset =>
    -- the number is odd, so that no sample has left the filter
    have hne : L.length + 1 ≠ maxSamples := by
      intro heq
      rw [hinput, if_pos heq, length_map, length_append, length_singleton, heq] at hset
      exact absurd hset.2 (by decide)
    rw [if_neg hne] at hinput
    have hodd : ((L ++ [call]).length + 1) % 2 = 1 := by
      rw [hinput, length_cons, length_map] at hset
      exact hset.2
    have hmedian : (s.vTimeOffsets.input call.2).median = .ok (middle (L ++ [call])) := by
      have hsorted := congrArg (insertionSort (· ≤ ·)) hinput
      simp only [CMedianFilter.median, show (s.vTimeOffsets.input call.2).vSorted = _ from hsorted,
        length_insertionSort, length_cons, length_map]
      rw [if_neg (Nat.succ_ne_zero _), if_pos hodd, middle]
    rw [hmedian]
    dsimp only [bind, Except.bind]
    split_ifs with hrange hwarned
    · exact .ok ⟨hnext _ _ _ hrange, fun _ => outvoted_middle hodd⟩
    · exact .ok ⟨hnext _ _ _ (by simp), fun _ _ _ => .inl rfl⟩
    · exact .ok ⟨hnext _ _ _ (by simp), fun _ _ _ => .inl rfl⟩
  · next hset => exact .ok ⟨hnext _ _ _ hs.offset, fun hsets => absurd hsets.2.2 hset⟩

/-- **A minority cannot move the time.** Sources count once and 200 at most, and an offset that is set
    while the honest samples outnumber the others is zero or between them. -/
theorem offset_of_minority (maxtimeadjustment : Int) (calls : List (ι × Int)) :
    Succeeds (calls.foldlM (addTimeData maxtimeadjustment) new) fun s =>
      (s.nTimeOffset ≥ -max 0 maxtimeadjustment ∧ s.nTimeOffset ≤ max 0 maxtimeadjustment) ∧
        s.setKnown = (samples calls).map fst ∧ s.setKnown.Nodup ∧ s.setKnown.length ≤ 200 ∧
        ∀ call, s.Sets call → Succeeds (s.addTimeData maxtimeadjustment call) fun s' =>
          Outvoted (samples (calls ++ [call])) s'.nTimeOffset := by
  have hsamples : ∀ (done : List (ι × Int)) call, samples (done ++ [call]) = count (samples done) call :=
    fun _ _ => foldl_concat ..
  have hrun : Succeeds (calls.foldlM (addTimeData maxtimeadjustment) new)
      (Counted maxtimeadjustment (samples calls)) := by
    apply Succeeds.foldlM fun done s => Counted maxtimeadjustment (samples done) s
    · exact ⟨rfl, nodup_nil, Nat.zero_le _, rfl, fun _ => rfl, by simp [new]⟩
    · intro done call rest s _ hs
      rw [hsamples]
      exact (hs.step call).mono fun s' hs' => hs'.1
  apply hrun.mono
  intro s hs
  refine ⟨hs.offset, hs.known, hs.nodup, hs.le, fun call hsets => ?_⟩
  rw [hsamples]
  exact (hs.step call).mono fun s' hs' => hs'.2 hsets

/-- The fifth sample sets the offset, and is too far off to be it. -/
theorem offset_of_minority_fifth : ∃ s s' : TimeData Nat,
    [(1, 60), (2, 70), (3, 80)].foldlM (addTimeData 4200) new = .ok s ∧ s.Sets (4, 100000) ∧
      s.addTimeData 4200 (4, 100000) = .ok s' ∧ s'.nTimeOffset = 70 ∧
      ∃ b ∈ honestSamples (· ≠ 4) [(1, 60), (2, 70), (3, 80), (4, 100000)], s'.nTimeOffset ≤ b := by
  have hfour : ∃ s : TimeData Nat, [(1, 60), (2, 70), (3, 80)].foldlM (addTimeData 4200) new = .ok s ∧
      s.Sets (4, 100000) ∧ (s.addTimeData 4200 (4, 100000)).map nTimeOffset = .ok 70 :=
    ⟨_, rfl, ⟨by decide, by decide, by decide, by decide⟩, rfl⟩
  obtain ⟨s, hrun, hsets, hoffset⟩ := hfour
  obtain ⟨_, hrun', -, -, -, -, hall⟩ := offset_of_minority 4200 [(1, 60), (2, 70), (3, 80)]
  cases hrun.symm.trans hrun'
  obtain ⟨s', hs', houtvoted⟩ := hall _ hsets
  have hseventy : s'.nTimeOffset = 70 := by
    rw [hs'] at hoffset
    exact Except.ok.inj hoffset
  refine ⟨s, s', hrun, hsets, hs', hseventy, ?_⟩
  rcases houtvoted (· ≠ 4) (by decide) with hzero | hrange
  · rw [hseventy] at hzero
    cases hzero
  · exact hrange.2

end TimeData

end Defcoin
