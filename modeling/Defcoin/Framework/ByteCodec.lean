import Mathlib.Data.List.Basic
import Mathlib.Tactic.Ring

/-! # Reading back what was written

  A reader consumes bytes from the front of a stream, or fails with a message. `Parses r bs a` says
  that `r` reads `a` from `bs` whatever follows; it composes along `bind`, so the round trip of a
  format is proved by following the format's own structure.
-/

namespace ByteCodec

open List

abbrev Bytes := List UInt8

/-- A reader of `α` from a byte stream. -/
abbrev Reader := StateT Bytes (Except String)

/-- Reading `r` from `bs` gives `a` and leaves exactly what follows `bs`. -/
def Parses {α : Type} (r : Reader α) (bs : Bytes) (a : α) : Prop :=
  ∀ rest, r (bs ++ rest) = .ok (a, rest)

section Composition
variable {α β : Type}

theorem Parses.pure (a : α) : Parses (Pure.pure a) [] a := fun _ => rfl

variable {a : α} {bs : Bytes} {r : Reader α}

theorem Parses.bind {f : α → Reader β} {bs' : Bytes} {b : β} (hr : Parses r bs a) (hf : Parses (f a) bs' b) :
    Parses (r >>= f) (bs ++ bs') b := by
  intro rest
  show (r (bs ++ bs' ++ rest) >>= fun p => f p.1 p.2) = _
  rw [append_assoc, hr]
  exact hf rest

theorem Parses.map (hr : Parses r bs a) (f : α → β) : Parses (r >>= fun x => Pure.pure (f x)) bs (f a) := by
  have h := hr.bind (f := fun x => Pure.pure (f x)) (Parses.pure (f a))
  rwa [append_nil] at h

theorem Parses.run (hr : Parses r bs a) : r bs = .ok (a, []) := by
  simpa using hr []

/-- Fail with `msg` unless `p` holds. -/
def ensure (p : Prop) [Decidable p] (msg : String) : Reader Unit := fun bs =>
  if p then .ok ((), bs) else .error msg

theorem parses_ensure {p : Prop} [Decidable p] (h : p) (msg : String) :
    Parses (ensure p msg) [] () := by
  intro rest
  simp [ensure, h]

theorem Parses.checked (hr : Parses r bs a) {p : α → Prop} [DecidablePred p] (hp : p a) (msg : String) :
    Parses (r >>= fun x => ensure (p x) msg >>= fun _ => Pure.pure x) bs a := by
  have h := hr.bind (f := fun x => ensure (p x) msg >>= fun _ => Pure.pure x)
    ((parses_ensure hp msg).bind (Parses.pure a))
  simpa using h

end Composition

/-! ### Bytes -/

/-- Read one byte. -/
def readByte : Reader UInt8
  | [] => .error "end of data"
  | b :: rest => .ok (b, rest)

theorem parses_byte (b : UInt8) : Parses readByte [b] b := fun _ => rfl

/-- Read a string of `n` bytes. -/
def readBytes (n : Nat) : Reader Bytes := fun bs =>
  if n ≤ bs.length then .ok (bs.take n, bs.drop n) else .error "end of data"

theorem parses_bytes {bs : Bytes} {n : Nat} (h : bs.length = n) : Parses (readBytes n) bs bs := by
  intro rest
  subst h
  simp [readBytes]

/-! ### Little-endian integers -/

/-- The `k` low bytes of `n`, least significant first. -/
def writeLE : Nat → Nat → Bytes
  | 0, _ => []
  | k + 1, n => UInt8.ofNat (n % 256) :: writeLE k (n / 256)

/-- Read a `k`-byte little-endian integer. -/
def readLE : Nat → Reader Nat
  | 0 => pure 0
  | k + 1 => do
    let b ← readByte
    let n ← readLE k
    pure (b.toNat + 256 * n)

@[simp] theorem length_writeLE (k n : Nat) : (writeLE k n).length = k := by
  induction k generalizing n with
  | zero => rfl
  | succ k ih => simp [writeLE, ih]

theorem parses_le {k n : Nat} (h : n < 256 ^ k) : Parses (readLE k) (writeLE k n) n := by
  induction k generalizing n with
  | zero =>
    obtain rfl : n = 0 := by omega
    exact Parses.pure 0
  | succ k ih =>
    have hdiv : n / 256 < 256 ^ k := by
      rw [Nat.div_lt_iff_lt_mul (by decide)]
      rwa [← pow_succ]
    have hval : (UInt8.ofNat (n % 256)).toNat + 256 * (n / 256) = n := by
      have hb : (UInt8.ofNat (n % 256)).toNat = n % 256 := by
        simp
      rw [hb]
      exact Nat.mod_add_div n 256
    have hrest := (ih hdiv).map (fun m => (UInt8.ofNat (n % 256)).toNat + 256 * m)
    rw [hval] at hrest
    exact (parses_byte _).bind hrest

theorem exists_parses_le {k : Nat} {bs : Bytes} (h : bs.length = k) : ∃ n, Parses (readLE k) bs n := by
  induction k generalizing bs with
  | zero =>
    obtain rfl := eq_nil_of_length_eq_zero h
    exact ⟨0, Parses.pure 0⟩
  | succ k ih =>
    rcases bs with _ | ⟨b, bs⟩
    · cases h
    · obtain ⟨n, hn⟩ := ih (Nat.succ.inj h)
      exact ⟨_, (parses_byte b).bind (hn.map fun n => b.toNat + 256 * n)⟩

/-! ### Repetition -/

/-- Read `n` items. -/
def readTimes {α : Type} (r : Reader α) : Nat → Reader (List α)
  | 0 => pure []
  | n + 1 => do
    let a ← r
    let as ← readTimes r n
    pure (a :: as)

/-- Write every item. -/
def writeEach {α : Type} (w : α → Bytes) (as : List α) : Bytes := as.flatMap w

theorem parses_times {α β : Type} {r : Reader β} {w : α → Bytes} (f : α → β) {as : List α}
    (h : ∀ a ∈ as, Parses r (w a) (f a)) :
    Parses (readTimes r as.length) (writeEach w as) (as.map f) := by
  induction as with
  | nil => exact Parses.pure []
  | cons a as ih =>
    have htail := (ih fun b hb => h b (by simp [hb])).map (f a :: ·)
    exact (h a (by simp)).bind htail

theorem parses_times_self {α : Type} {r : Reader α} {w : α → Bytes} {as : List α}
    (h : ∀ a ∈ as, Parses r (w a) a) : Parses (readTimes r as.length) (writeEach w as) as := by
  simpa using parses_times id h

/-! ### Canonical readers -/

/-- Reading `a` consumes exactly the bytes that are written for `a`. -/
def Canonical {α : Type} (r : Reader α) (w : α → Bytes) : Prop :=
  ∀ bs a rest, r bs = .ok (a, rest) → bs = w a ++ rest

section Inversion
variable {α β : Type} {bs rest : Bytes}

theorem reader_bind_eq_ok {r : Reader α} {f : α → Reader β} {b : β} :
    (r >>= f) bs = .ok (b, rest) ↔ ∃ a mid, r bs = .ok (a, mid) ∧ f a mid = .ok (b, rest) := by
  show (r bs >>= fun p => f p.1 p.2) = _ ↔ _
  cases r bs with
  | error e =>
    constructor
    · intro h
      cases h
    · rintro ⟨a, mid, h, -⟩
      cases h
  | ok p =>
    constructor
    · intro h
      exact ⟨p.1, p.2, rfl, h⟩
    · rintro ⟨a, mid, h, hf⟩
      cases h
      exact hf

theorem reader_pure_eq_ok {a b : α} :
    (pure a : Reader α) bs = .ok (b, rest) ↔ a = b ∧ bs = rest := by
  show Except.ok (a, bs) = _ ↔ _
  simp

theorem ensure_eq_ok {p : Prop} [Decidable p] {msg : String} {u : Unit} :
    ensure p msg bs = .ok (u, rest) ↔ p ∧ bs = rest := by
  unfold ensure
  by_cases hp : p
  · simp [hp]
  · simp [hp]

end Inversion

theorem canonical_byte : Canonical readByte fun b => [b] := by
  intro bs b rest h
  cases bs with
  | nil => cases h
  | cons c bs =>
    cases h
    rfl

theorem readBytes_eq_ok {n : Nat} {bs a rest : Bytes} (h : readBytes n bs = .ok (a, rest)) :
    bs = a ++ rest ∧ a.length = n := by
  unfold readBytes at h
  by_cases hn : n ≤ bs.length
  · rw [if_pos hn] at h
    cases h
    exact ⟨(take_append_drop n bs).symm, by simp [hn]⟩
  · rw [if_neg hn] at h
    cases h

theorem readLE_eq_ok {k : Nat} {bs rest : Bytes} {n : Nat} (h : readLE k bs = .ok (n, rest)) :
    bs = writeLE k n ++ rest ∧ n < 256 ^ k := by
  induction k generalizing bs n with
  | zero =>
    obtain ⟨rfl, rfl⟩ := reader_pure_eq_ok.mp h
    exact ⟨rfl, by simp⟩
  | succ k ih =>
    obtain ⟨b, mid, hb, h⟩ := reader_bind_eq_ok.mp h
    obtain ⟨m, _, hm, h⟩ := reader_bind_eq_ok.mp h
    obtain ⟨rfl, rfl⟩ := reader_pure_eq_ok.mp h
    obtain ⟨hmid, hlt⟩ := ih hm
    have hbyte := UInt8.toNat_lt b
    have hlow : (b.toNat + 256 * m) % 256 = b.toNat := by omega
    have hhigh : (b.toNat + 256 * m) / 256 = m := by omega
    refine ⟨?_, ?_⟩
    · rw [canonical_byte bs b mid hb, hmid, writeLE, hlow, hhigh, UInt8.ofNat_toNat]
      rfl
    · omega

/-! ### Exact readers -/

/-- What is read is what is written for the values with `P`, and nothing else. -/
def Exact {α : Type} (r : Reader α) (w : α → Bytes) (P : α → Prop) : Prop :=
  ∀ bs a rest, r bs = .ok (a, rest) ↔ bs = w a ++ rest ∧ P a

section Exact
variable {α : Type} {r : Reader α} {w : α → Bytes} {P : α → Prop}

theorem Exact.iff (h : Exact r w P) {bs rest : Bytes} {a : α} :
    r bs = .ok (a, rest) ↔ bs = w a ++ rest ∧ P a := h bs a rest

theorem Exact.of (hparses : ∀ a, P a → Parses r (w a) a)
    (hreads : ∀ bs a rest, r bs = .ok (a, rest) → bs = w a ++ rest ∧ P a) : Exact r w P := by
  intro bs a rest
  constructor
  · exact hreads bs a rest
  · intro h
    obtain ⟨rfl, ha⟩ := h
    exact hparses a ha rest

theorem Exact.parses (h : Exact r w P) {a : α} (ha : P a) : Parses r (w a) a := fun _ =>
  h.iff.mpr ⟨rfl, ha⟩

theorem Exact.checked (h : Exact r w P) {p : α → Prop} [DecidablePred p] (msg : String) :
    Exact (do let a ← r; ensure (p a) msg; pure a) w fun a => P a ∧ p a := by
  apply Exact.of fun a ha => (h.parses ha.1).checked ha.2 msg
  intro bs a rest hread
  obtain ⟨_, _, ha, hread⟩ := reader_bind_eq_ok.mp hread
  obtain ⟨_, _, hu, hread⟩ := reader_bind_eq_ok.mp hread
  obtain ⟨hp, rfl⟩ := ensure_eq_ok.mp hu
  obtain ⟨rfl, rfl⟩ := reader_pure_eq_ok.mp hread
  obtain ⟨hbs, hP⟩ := h.iff.mp ha
  exact ⟨hbs, hP, hp⟩

theorem exact_byte : Exact readByte (fun b => [b]) fun _ => True :=
  Exact.of (fun b _ => parses_byte b) fun bs b rest h => ⟨canonical_byte bs b rest h, trivial⟩

theorem exact_le (k : Nat) : Exact (readLE k) (writeLE k) (· < 256 ^ k) :=
  Exact.of (fun _ hn => parses_le hn) fun _ _ _ h => readLE_eq_ok h

theorem exact_bytes (n : Nat) : Exact (readBytes n) id fun bs => bs.length = n :=
  Exact.of (fun _ h => parses_bytes h) fun _ _ _ h => readBytes_eq_ok h

theorem Exact.times (h : Exact r w P) (n : Nat) :
    Exact (readTimes r n) (writeEach w) fun as => as.length = n ∧ ∀ a ∈ as, P a := by
  apply Exact.of
  · intro as has
    obtain ⟨rfl, has⟩ := has
    exact parses_times_self fun a ha => h.parses (has a ha)
  · induction n with
    | zero =>
      intro bs as rest hread
      obtain ⟨rfl, rfl⟩ := reader_pure_eq_ok.mp hread
      exact ⟨rfl, rfl, by simp⟩
    | succ n ih =>
      intro bs as rest hread
      obtain ⟨a, mid, ha, hread⟩ := reader_bind_eq_ok.mp hread
      obtain ⟨as', mid', has, hread⟩ := reader_bind_eq_ok.mp hread
      obtain ⟨rfl, rfl⟩ := reader_pure_eq_ok.mp hread
      obtain ⟨rfl, hpa⟩ := h.iff.mp ha
      obtain ⟨rfl, hlen, hpas⟩ := ih mid as' mid' has
      refine ⟨?_, by rw [length_cons, hlen], ?_⟩
      · rw [writeEach, writeEach, flatMap_cons, append_assoc]
      · exact forall_mem_cons.mpr ⟨hpa, hpas⟩

end Exact

end ByteCodec
