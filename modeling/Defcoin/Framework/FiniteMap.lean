import Mathlib.Data.List.AList
import Mathlib.Data.List.Dedup

/-! # Merging finite maps key by key

  A write-back loop walks over the entries of one finite map and, for each key, replaces what
  another finite map holds for that key. Keys are distinct, so the loop is the pointwise merge
  whatever its order is.
-/

namespace FiniteMap

open List AList Function

variable {α : Type*} {β γ : Type*} {ε : Type*} [DecidableEq α]

section
variable (m : AList (fun _ : α => β))

/-- What a finite map holds for a key becomes `r`: a new value, or nothing. -/
def put (k : α) (r : Option β) : AList (fun _ : α => β) :=
  match r with
  | some v => m.insert k v
  | none => m.erase k

@[simp] theorem lookup_put_self (k : α) (r : Option β) :
    (put m k r).lookup k = r := by
  cases r with
  | some v => exact lookup_insert m
  | none => exact lookup_erase k m

theorem lookup_put_ne {k k' : α} (h : k' ≠ k) (r : Option β) :
    (put m k r).lookup k' = m.lookup k' := by
  cases r with
  | some v => exact lookup_insert_ne h
  | none => exact lookup_erase_ne h

theorem lookup_put (k : α) (r : Option β) :
    (fun k' => (put m k r).lookup k') = update (fun k' => m.lookup k') k r := by
  funext k'
  by_cases heq : k' = k
  · rw [heq, lookup_put_self, update_self]
  · rw [lookup_put_ne m heq, update_of_ne heq]

theorem map_lookup_put (f : β → γ) (m : AList (fun _ : α => β)) (k : α) (r : Option β) :
    (fun k' => ((put m k r).lookup k').map f) = update (fun k' => (m.lookup k').map f) k (r.map f) :=
  (congrArg (Option.map f ∘ ·) (lookup_put m k r)).trans (comp_update ..)

/-! ### Walks that touch one key at a time -/

theorem dlookup_entries (k : α) : m.entries.dlookup k = m.lookup k := rfl

end

section Walk
variable {σ δ : Type*}

/-- A walk over the entries of a finite map each of whose steps changes, of what `get` shows of the
    state, only the part for the entry's own key, as `R` says. -/
theorem foldlM_entries_spec (f : σ → α → γ → Except ε σ) (get : σ → α → δ) (Ok : α → δ → γ → Prop)
    (R : α → δ → γ → δ → Prop) (hstep : ∀ s k v, Ok k (get s k) v →
      ∃ s', f s k v = .ok s' ∧ R k (get s k) v (get s' k) ∧ ∀ k', k' ≠ k → get s' k' = get s k') :
    ∀ (entries : List (Sigma fun _ : α => γ)) (s : σ), entries.NodupKeys →
      (∀ k v, (⟨k, v⟩ : Sigma fun _ : α => γ) ∈ entries → Ok k (get s k) v) →
      ∃ s', entries.foldlM (fun s e => f s e.1 e.2) s = .ok s' ∧ ∀ k, match entries.dlookup k with
          | some v => R k (get s k) v (get s' k)
          | none => get s' k = get s k := by
  intro entries
  induction entries with
  | nil => intro s _ _; exact ⟨s, rfl, fun k => by simp⟩
  | cons p rest ih =>
    obtain ⟨k₀, v₀⟩ := p
    intro s hnd hok
    have hk₀ : k₀ ∉ rest.keys := (nodupKeys_cons.mp hnd).1
    obtain ⟨s₁, hs₁, hself, hother⟩ := hstep s k₀ v₀ (hok k₀ v₀ (by simp))
    -- later entries have other keys, so they still see what `s` showed
    have hne : ∀ k v, (⟨k, v⟩ : Sigma fun _ : α => γ) ∈ rest → k ≠ k₀ := by
      intro k v hmem heq
      exact hk₀ (heq ▸ mem_keys_of_mem hmem)
    obtain ⟨s', hs', hget⟩ := ih s₁ (nodupKeys_cons.mp hnd).2 (by
      intro k v hmem
      rw [hother k (hne k v hmem)]
      exact hok k v (by simp [hmem]))
    refine ⟨s', ?_, fun k => ?_⟩
    · show (f s k₀ v₀ >>= fun s => _) = _
      rw [hs₁]
      exact hs'
    · have hk' := hget k
      by_cases hk : k = k₀
      · subst hk
        have hnone := dlookup_eq_none.mpr hk₀
        rw [hnone] at hk'
        rw [dlookup_cons_eq]
        rwa [hk']
      · rwa [hother k hk, ← dlookup_cons_ne _ ⟨k₀, v₀⟩ hk] at hk'

theorem foldl_entries_spec (f : σ → α → γ → σ) (get : σ → α → δ) (Ok : α → γ → Prop)
    (g : α → δ → γ → δ) (hstep : ∀ s k v, Ok k v → get (f s k v) k = g k (get s k) v ∧
      ∀ k', k' ≠ k → get (f s k v) k' = get s k')
    (entries : List (Sigma fun _ : α => γ)) (s : σ) (hnd : entries.NodupKeys)
    (hok : ∀ k v, (⟨k, v⟩ : Sigma fun _ : α => γ) ∈ entries → Ok k v) (k : α) :
    get (entries.foldl (fun s e => f s e.1 e.2) s) k = match entries.dlookup k with
      | some v => g k (get s k) v
      | none => get s k := by
  obtain ⟨_, hs', hget⟩ := foldlM_entries_spec (ε := Empty) (fun s k v => .ok (f s k v)) get
    (fun k _ v => Ok k v) (fun k d v d' => d' = g k d v)
    (fun s k v hv => ⟨f s k v, rfl, hstep s k v hv⟩) entries s hnd hok
  have hpure : entries.foldlM (fun s e => (Except.ok (f s e.1 e.2) : Except Empty σ)) s =
      .ok (entries.foldl (fun s e => f s e.1 e.2) s) := foldlM_pure ..
  have := hget k
  split <;> simp_all

end Walk

/-! ### Merging -/

/-- Walk over `entries`, letting `f` decide from what `m` holds for each key and from the entry what
    `m` holds for that key afterwards. -/
def mergeEntries (f : Option β → γ → Except ε (Option β)) :
    AList (fun _ : α => β) → List (Sigma fun _ : α => γ) → Except ε (AList (fun _ : α => β))
  | m, [] => .ok m
  | m, ⟨k, v⟩ :: rest =>
    match f (m.lookup k) v with
    | .error e => .error e
    | .ok r => mergeEntries f (put m k r) rest

/-- If `f` accepts every entry against what `m` holds for its key, the walk succeeds; keys that have an
    entry hold what `f` gave for it. -/
theorem mergeEntries_spec (f : Option β → γ → Except ε (Option β)) (g : Option β → γ → Option β) :
    ∀ (entries : List (Sigma fun _ : α => γ)) (m : AList (fun _ : α => β)), entries.NodupKeys →
      (∀ k v, (⟨k, v⟩ : Sigma fun _ : α => γ) ∈ entries → f (m.lookup k) v = .ok (g (m.lookup k) v)) →
      ∃ m', mergeEntries f m entries = .ok m' ∧ ∀ k, m'.lookup k = match entries.dlookup k with
          | some v => g (m.lookup k) v
          | none => m.lookup k := by
  intro entries m hnd hf
  have hwalk : ∀ (entries : List (Sigma fun _ : α => γ)) m,
      mergeEntries f m entries =
        entries.foldlM (fun m e => (f (m.lookup e.1) e.2).map (put m e.1)) m := by
    intro entries
    induction entries with
    | nil => intro m; rfl
    | cons p rest ih =>
      intro m
      rw [mergeEntries, foldlM_cons]
      cases f (m.lookup p.1) p.2 with
      | error e => rfl
      | ok r => exact ih _
  rw [hwalk]
  obtain ⟨m', hm', hlook⟩ := foldlM_entries_spec (fun m k v => (f (m.lookup k) v).map (put m k))
    (fun m k => m.lookup k) (fun _ r v => f r v = .ok (g r v)) (fun _ r v r' => r' = g r v)
    (fun m k v hv => ⟨put m k (g (m.lookup k) v), by rw [hv]; rfl, lookup_put_self ..,
      fun k' hk' => lookup_put_ne m hk' _⟩) entries m hnd hf
  refine ⟨m', hm', fun k => ?_⟩
  have := hlook k
  split <;> simp_all

variable {k : α} {kvs : List (α × β)} {m : AList (fun _ : α => β)}

theorem mergeEntries_ok {f : Option β → γ → Except ε (Option β)} {entries : List (Sigma fun _ : α => γ)}
    {m' : AList (fun _ : α => β)} (hnd : entries.NodupKeys) (h : mergeEntries f m entries = .ok m') (k : α) :
    match entries.dlookup k with
    | some v => f (m.lookup k) v = .ok (m'.lookup k)
    | none => m'.lookup k = m.lookup k := by
  induction entries generalizing m with
  | nil =>
    cases h
    rfl
  | cons p rest ih =>
    obtain ⟨k₀, v₀⟩ := p
    have hk₀ := (nodupKeys_cons.mp hnd).1
    rw [mergeEntries] at h
    cases hf : f (m.lookup k₀) v₀ with
    | error e =>
      rw [hf] at h
      cases h
    | ok r =>
      rw [hf] at h
      have hrest := ih (nodupKeys_cons.mp hnd).2 h
      by_cases hk : k = k₀
      · subst hk
        rw [dlookup_eq_none.mpr hk₀] at hrest
        simp only [lookup_put_self] at hrest
        rw [dlookup_cons_eq]
        simp only [hrest]
        exact hf
      · rw [lookup_put_ne m hk] at hrest
        have hlook : List.dlookup k ((⟨k₀, v₀⟩ : Sigma fun _ : α => γ) :: rest) = rest.dlookup k :=
          dlookup_cons_ne _ _ hk
        rwa [hlook]

/-! ### Filling a map -/

/-- A map with entries inserted one after the other. -/
def insertAll (m : AList (fun _ : α => β)) (kvs : List (α × β)) : AList (fun _ : α => β) :=
  kvs.foldl (fun m kv => m.insert kv.1 kv.2) m

theorem mem_insertAll : k ∈ insertAll m kvs ↔ k ∈ m ∨ k ∈ kvs.map Prod.fst := by
  induction kvs generalizing m with
  | nil => simp [insertAll]
  | cons kv kvs ih =>
    show k ∈ insertAll (m.insert kv.1 kv.2) kvs ↔ _
    rw [ih, mem_insert, map_cons, mem_cons]
    tauto

theorem lookup_insertAll_of_notMem (h : k ∉ kvs.map Prod.fst) : (insertAll m kvs).lookup k = m.lookup k := by
  induction kvs generalizing m with
  | nil => rfl
  | cons kv kvs ih =>
    rw [map_cons, mem_cons, not_or] at h
    show (insertAll (m.insert kv.1 kv.2) kvs).lookup k = _
    rw [ih h.2, lookup_insert_ne h.1]

theorem lookup_insertAll (hnodup : (kvs.map Prod.fst).Nodup) {v : β} (h : (k, v) ∈ kvs) :
    (insertAll m kvs).lookup k = some v := by
  induction kvs generalizing m with
  | nil => cases h
  | cons kv kvs ih =>
    rw [map_cons, nodup_cons] at hnodup
    show (insertAll (m.insert kv.1 kv.2) kvs).lookup k = _
    rcases mem_cons.mp h with rfl | h
    · rw [lookup_insertAll_of_notMem hnodup.1, lookup_insert]
    · exact ih hnodup.2 h

/-- **Collisions**: the map is as large as the list exactly if no key comes twice. -/
theorem length_keys_insertAll : (insertAll ∅ kvs).keys.length = kvs.length ↔ (kvs.map Prod.fst).Nodup := by
  -- its keys are those of the list, once each
  have hperm : (insertAll ∅ kvs).keys.Perm (kvs.map Prod.fst).dedup := by
    rw [perm_ext_iff_of_nodup (insertAll ∅ kvs).keys_nodup (nodup_dedup _)]
    intro k
    rw [← AList.mem_keys, mem_insertAll]
    simp [AList.notMem_empty]
  rw [hperm.length_eq]
  constructor
  · intro h
    rw [← dedup_eq_self]
    apply (dedup_sublist _).eq_of_length
    rw [h, length_map]
  · intro h
    rw [dedup_eq_self.mpr h, length_map]

end FiniteMap
