import Mathlib.Data.List.AList
import Mathlib.Data.List.GetD
import Defcoin.Framework.ByteCodec

/-! # Files written byte by byte

  A file is the list of its bytes; behind its end everything reads as zero. Writing behind the end
  fills the gap with zeros. Writes are collected in a map from positions to bytes and carried out in
  the order of its entries, which does not matter because the positions differ.
-/

namespace SparseFile

open ByteCodec List

/-- Pending writes. -/
abbrev Writes := AList fun _ : Nat => UInt8

/-- The byte at a position. -/
def byteAt (file : Bytes) (k : Nat) : UInt8 := file.getD k 0

/-- Write one byte. -/
def writeAt (file : Bytes) (k : Nat) (v : UInt8) : Bytes :=
  if k < file.length then file.set k v
  else file ++ List.replicate (k - file.length) 0 ++ [v]

/-- Carry out all pending writes. -/
def writeAll (file : Bytes) (writes : Writes) : Bytes :=
  writes.entries.foldl (fun f e => writeAt f e.1 e.2) file

/-- Let consecutive bytes be written from a position on. -/
def storeFrom (writes : Writes) (k : Nat) : Bytes → Writes
  | [] => writes
  | b :: bs => storeFrom (writes.insert k b) (k + 1) bs

/-! ### Folding writes with different positions -/

theorem foldl_writes {σ ω : Type} (put : σ → (Σ _ : Nat, UInt8) → σ) (read : σ → ω)
    (value : UInt8 → ω) {k : Nat}
    (hput : ∀ s e, read (put s e) = if e.1 = k then value e.2 else read s) :
    ∀ (es : List (Σ _ : Nat, UInt8)) (s : σ), es.NodupKeys →
      read (es.foldl put s) = ((es.dlookup k).map value).getD (read s) := by
  intro es
  induction es with
  | nil => intro s _; rfl
  | cons e es ih =>
    obtain ⟨a, v⟩ := e
    intro s hnodup
    obtain ⟨hnotin, hrest⟩ := nodupKeys_cons.mp hnodup
    rw [foldl_cons, ih _ hrest, hput]
    by_cases hk : a = k
    · subst hk
      rw [dlookup_eq_none.mpr hnotin]
      simp
    · rw [dlookup_cons_ne _ _ (Ne.symm hk), if_neg hk]

variable (file : Bytes) (writes : Writes) (k : Nat) (bs : Bytes) (v : UInt8) (j : Nat)

theorem byteAt_writeAt : byteAt (writeAt file k v) j = if k = j then v else byteAt file j := by
  unfold byteAt writeAt
  by_cases hlt : k < file.length
  · rw [if_pos hlt]
    by_cases hj : k = j
    · simp [hj, hj ▸ hlt]
    · simp [hj]
  · rw [if_neg hlt, getD_eq_getElem?_getD, getD_eq_getElem?_getD]
    by_cases hfile : j < file.length
    · have hne : k ≠ j := by omega
      simp [List.getElem?_append, hfile, hne]
    · by_cases hj : k = j
      · subst hj
        simp [List.getElem?_append, hfile]
      · have hnone : file[j]? = none := by simpa using hfile
        rw [if_neg hj, hnone]
        simp only [append_assoc, List.getElem?_append, hfile]
        by_cases hgap : j - file.length < k - file.length
        · simp [hgap]
        · have hbehind : j - file.length - (k - file.length) ≠ 0 := by omega
          simp [hgap, hbehind]

theorem length_writeAt : file.length ≤ (writeAt file k v).length ∧ k < (writeAt file k v).length := by
  unfold writeAt
  split
  · next h => simp [h]
  · simp
    omega

theorem byteAt_writeAll : byteAt (writeAll file writes) j = (writes.lookup j).getD (byteAt file j) := by
  have h := foldl_writes (fun f e => writeAt f e.1 e.2) (fun f => byteAt f j) id
    (fun f e => byteAt_writeAt f e.1 e.2 j) writes.entries file writes.nodupKeys
  simpa [writeAll, AList.lookup] using h

theorem length_writeAll : ∀ k ∈ writes, k < (writeAll file writes).length := by
  have hlen : ∀ (es : List (Σ _ : Nat, UInt8)) f,
      f.length ≤ (es.foldl (fun f e => writeAt f e.1 e.2) f).length ∧
        ∀ e ∈ es, e.1 < (es.foldl (fun f e => writeAt f e.1 e.2) f).length := by
    intro es
    induction es with
    | nil => simp
    | cons e es ih =>
      intro f
      obtain ⟨hold, hpos⟩ := length_writeAt f e.1 e.2
      obtain ⟨hge, hin⟩ := ih (writeAt f e.1 e.2)
      refine ⟨hold.trans hge, fun e' he' => ?_⟩
      rcases mem_cons.mp he' with rfl | he'
      · exact Nat.lt_of_lt_of_le hpos hge
      · exact hin e' he'
  intro k hk
  obtain ⟨v, hv⟩ := mem_keys.mp (AList.mem_keys.mp hk)
  exact (hlen writes.entries file).2 ⟨k, v⟩ hv

theorem lookup_storeFrom : (storeFrom writes k bs).lookup j =
      if k ≤ j ∧ j < k + bs.length then bs[j - k]? else writes.lookup j := by
  induction bs generalizing writes k with
  | nil =>
    rw [storeFrom, if_neg (by simp)]
  | cons b bs ih =>
    rw [storeFrom, ih, length_cons]
    by_cases hj : j = k
    · subst hj
      simp
    · rw [AList.lookup_insert_ne hj]
      by_cases hin : k + 1 ≤ j ∧ j < k + 1 + bs.length
      · obtain ⟨i, rfl⟩ : ∃ i, j = k + 1 + i := ⟨j - (k + 1), by omega⟩
        rw [if_pos hin, if_pos (by omega)]
        have hleft : k + 1 + i - (k + 1) = i := by omega
        have hright : k + 1 + i - k = i + 1 := by omega
        rw [hleft, hright, List.getElem?_cons_succ]
      · rw [if_neg hin, if_neg (by omega)]

theorem take_writeAll_storeFrom : (writeAll file (storeFrom writes 0 bs)).take bs.length = bs ∧
      bs.length ≤ (writeAll file (storeFrom writes 0 bs)).length := by
  have hlookup : ∀ i < bs.length, (storeFrom writes 0 bs).lookup i = bs[i]? := by
    intro i hi
    rw [lookup_storeFrom, if_pos (by omega), Nat.sub_zero]
  have hin : ∀ i < bs.length, i < (writeAll file (storeFrom writes 0 bs)).length := by
    intro i hi
    apply length_writeAll
    rw [← AList.lookup_isSome, hlookup i hi]
    simp [hi]
  have hlen : bs.length ≤ (writeAll file (storeFrom writes 0 bs)).length := by
    cases hn : bs.length with
    | zero => omega
    | succ n => exact hin n (by omega)
  refine ⟨?_, hlen⟩
  apply ext_getElem
  · simp [hlen]
  · intro i hi hi'
    have hbyte := byteAt_writeAll file (storeFrom writes 0 bs) i
    rw [hlookup i hi', byteAt, getD_eq_getElem _ _ (hin i hi'), List.getElem?_eq_getElem hi'] at hbyte
    rw [getElem_take]
    exact hbyte

end SparseFile
