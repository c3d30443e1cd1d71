import Mathlib.Algebra.Group.Nat.Defs
import CryptoBook.BoundedFifo
import CryptoBook.Runs

/-! # The single-producer single-consumer ring

`SpscQueue` of `core/spsc_queue.hpp`, at the grain of its shared-memory accesses.
`try_push` takes up to five steps: load `tail_`, compare with the cached head, load
`head_` when the queue looks full, write the slot, store `tail_`; `try_pop` mirrors it.
The comparison after the load of the other side's counter is local to the thread and
belongs to the load.  A schedule names, step by step, which of the two threads moves;
between calls the producer may start a call with any value.  Counters are `u64` and
wrap: up to 2^64 pushes the ring is a bounded queue, and beyond it is still a queue, but
the consumer may find it empty when it is not.

The two stale caches only ever lag behind (`Inv.cachedHead_le`, `Inv.cachedTail_le`), so
a thread that trusts its cache sees less room, or fewer elements, than there are.
That is what lets a slot be reused: the slot the producer writes is never one that
holds an element, and never the one the consumer is reading. -/
namespace Asmm
namespace SpscQueue
open BoundedFifo

variable {T : Type}

/-- Where the producer is in `try_push(value)`. -/
inductive Producer (T : Type) where
  | idle
  | loadTail (value : T)
  | compare (value : T) (tail : UInt64)
  | loadHead (value : T) (tail : UInt64)
  | writeSlot (value : T) (tail : UInt64)
  | storeTail (value : T) (tail : UInt64)
  deriving DecidableEq

/-- Where the consumer is in `try_pop(out)`. -/
inductive Consumer (T : Type) where
  | idle
  | loadHead
  | compare (head : UInt64)
  | loadTail (head : UInt64)
  | readSlot (head : UInt64)
  | storeHead (head : UInt64) (out : T)
  deriving DecidableEq

/-- The members of the queue and the two threads' positions. -/
structure State (T : Type) where
  head : UInt64
  cachedTail : UInt64
  tail : UInt64
  cachedHead : UInt64
  buf : Nat → T
  producer : Producer T
  consumer : Consumer T

/-- `Capacity`: a power of two that fits `std::size_t`. -/
def capacity (k : Fin 64) : UInt64 := UInt64.ofNat (2 ^ k.val)

def kMask (k : Fin 64) : UInt64 := capacity k - 1

/-- The slot of a counter, `counter & kMask`. -/
def slot (k : Fin 64) (counter : UInt64) : Nat := (counter &&& kMask k).toNat

/-- A queue just constructed; `buf_{}` holds a default value in every slot. -/
def initial (default : T) : State T :=
  ⟨0, 0, 0, 0, fun _ => default, .idle, .idle⟩

/-- One step of the producer; an idle producer calls `try_push(value)`. -/
def produce (k : Fin 64) (value : T) (s : State T) : State T × Option (Answer T) :=
  match s.producer with
  | .idle => ({ s with producer := .loadTail value }, none)
  | .loadTail v => ({ s with producer := .compare v s.tail }, none)
  | .compare v tail =>
      if tail - s.cachedHead ≥ capacity k then ({ s with producer := .loadHead v tail }, none)
      else ({ s with producer := .writeSlot v tail }, none)
  | .loadHead v tail =>
      let s := { s with cachedHead := s.head }
      if tail - s.cachedHead ≥ capacity k then ({ s with producer := .idle }, some (.full v))
      else ({ s with producer := .writeSlot v tail }, none)
  | .writeSlot v tail =>
      ({ s with
          buf := fun i => if i = slot k tail then v else s.buf i
          producer := .storeTail v tail }, none)
  | .storeTail v tail => ({ s with tail := tail + 1, producer := .idle }, some (.pushed v))

/-- One step of the consumer; an idle consumer calls `try_pop`. -/
def consume (k : Fin 64) (s : State T) : State T × Option (Answer T) :=
  match s.consumer with
  | .idle => ({ s with consumer := .loadHead }, none)
  | .loadHead => ({ s with consumer := .compare s.head }, none)
  | .compare head =>
      if head ≥ s.cachedTail then ({ s with consumer := .loadTail head }, none)
      else ({ s with consumer := .readSlot head }, none)
  | .loadTail head =>
      let s := { s with cachedTail := s.tail }
      if head ≥ s.cachedTail then ({ s with consumer := .idle }, some .empty)
      else ({ s with consumer := .readSlot head }, none)
  | .readSlot head => ({ s with consumer := .storeHead head (s.buf (slot k head)) }, none)
  | .storeHead head out => ({ s with head := head + 1, consumer := .idle }, some (.popped out))

/-- Which thread moves next. -/
inductive Turn (T : Type) where
  | producer (value : T)
  | consumer

/-- A state and the calls answered so far, in the order they were answered. -/
structure Trace (T : Type) where
  state : State T
  answers : List (Answer T)

/-- The trace after a step that may have answered a call. -/
def Trace.after (t : Trace T) : State T × Option (Answer T) → Trace T
  | (s, none) => ⟨s, t.answers⟩
  | (s, some a) => ⟨s, t.answers ++ [a]⟩

def Trace.take (k : Fin 64) (t : Trace T) : Turn T → Trace T
  | .producer value => t.after (produce k value t.state)
  | .consumer => t.after (consume k t.state)

/-- Run a schedule on a fresh queue. -/
def run (k : Fin 64) (default : T) (schedule : List (Turn T)) : Trace T :=
  schedule.foldl (Trace.take k) ⟨initial default, []⟩

/-! ## Counters and slots -/

theorem toNat_capacity (k : Fin 64) : (capacity k).toNat = 2 ^ k.val := by
  unfold capacity
  rw [UInt64.toNat_ofNat']
  exact Nat.mod_eq_of_lt (Nat.pow_lt_pow_right (by omega) k.isLt)

theorem slot_eq (k : Fin 64) (counter : UInt64) :
    slot k counter = counter.toNat % 2 ^ k.val := by
  have hone : (1 : UInt64) ≤ capacity k := by
    rw [UInt64.le_iff_toNat_le, toNat_capacity]
    exact Nat.one_le_two_pow
  have hmask : (kMask k).toNat = 2 ^ k.val - 1 := by
    unfold kMask
    rw [UInt64.toNat_sub_of_le _ _ hone, toNat_capacity]
    rfl
  rw [slot, UInt64.toNat_and, hmask, Nat.and_two_pow_sub_one_eq_mod]

/-- Counters less than a lap apart have different slots. -/
theorem mod_ne_of_lt {cap a d : Nat} (h0 : 0 < d) (hd : d < cap) : (a + d) % cap ≠ a % cap := by
  intro he
  have hz := Nat.sub_mod_eq_zero_of_mod_eq he
  rw [Nat.add_sub_cancel_left, Nat.mod_eq_of_lt hd] at hz
  omega

/-! ## The invariant -/

/-- What the producer's position promises, while the queue holds `q`.  Once it has found
room, there is room even by the head it remembers. -/
def ProducerOk (k : Fin 64) (s : State T) (q : List T) : Prop :=
  match s.producer with
  | .idle | .loadTail _ => True
  | .compare _ tail | .loadHead _ tail => tail = s.tail
  | .writeSlot _ tail =>
      tail = s.tail ∧ s.head.toNat + q.length < s.cachedHead.toNat + 2 ^ k.val
  | .storeTail v tail =>
      tail = s.tail ∧ s.head.toNat + q.length < s.cachedHead.toNat + 2 ^ k.val ∧
        s.buf (slot k tail) = v

/-- What the consumer's position promises, while the queue holds `q`.  The head it is about
to pass is below a counter, so it does not wrap. -/
def ConsumerOk (s : State T) (q : List T) : Prop :=
  match s.consumer with
  | .idle | .loadHead => True
  | .compare head | .loadTail head => head = s.head
  | .readSlot head => head = s.head ∧ head < s.cachedTail ∧ q ≠ []
  | .storeHead head out => head = s.head ∧ head < s.cachedTail ∧ q.head? = some out

/-- What was pushed is what was popped, then `q`; the counters count pushes and pops, the
tail modulo 2^64; the caches lag; the slots from `head` on hold `q`.  As long as the tail
has not wrapped, the answers so far are those of a bounded queue. -/
structure Inv (k : Fin 64) (t : Trace T) (q : List T) : Prop where
  fifo : pushes t.answers = pops t.answers ++ q
  legal : (pushes t.answers).length < 2 ^ 64 → Run (2 ^ k.val) t.answers q
  tail_eq : t.state.tail.toNat = (t.state.head.toNat + q.length) % 2 ^ 64
  head_eq : t.state.head.toNat = (pops t.answers).length
  cachedHead_le : t.state.cachedHead ≤ t.state.head
  tail_le : t.state.head.toNat + q.length ≤ t.state.cachedHead.toNat + 2 ^ k.val
  cachedTail_le : t.state.cachedTail.toNat ≤ t.state.head.toNat + q.length
  slots : ∀ i v, q[i]? = some v → t.state.buf ((t.state.head.toNat + i) % 2 ^ k.val) = v
  producer : ProducerOk k t.state q
  consumer : ConsumerOk t.state q

theorem inv_initial (k : Fin 64) (default : T) : Inv k ⟨initial default, []⟩ [] where
  fifo := rfl
  legal := fun _ => .nil
  tail_eq := rfl
  head_eq := rfl
  cachedHead_le := UInt64.le_refl _
  tail_le := Nat.zero_le _
  cachedTail_le := Nat.le_refl _
  slots := by simp
  producer := trivial
  consumer := trivial

section Invariant
variable {k : Fin 64} {t : Trace T} {q : List T}

theorem Inv.count (h : Inv k t q) :
    (pushes t.answers).length = t.state.head.toNat + q.length := by
  rw [h.fifo, List.length_append, h.head_eq]

theorem Inv.length_le (h : Inv k t q) : q.length ≤ 2 ^ k.val := by
  have := h.tail_le
  have := UInt64.le_iff_toNat_le.mp h.cachedHead_le
  omega

/-- Up to 2^64 pushes, the tail is the head plus what is held. -/
theorem Inv.tail_add (h : Inv k t q) (hfew : (pushes t.answers).length < 2 ^ 64) :
    t.state.tail.toNat = t.state.head.toNat + q.length := by
  rw [h.tail_eq, Nat.mod_eq_of_lt (h.count ▸ hfew)]

/-- The slot at the tail is the one after those held, whether or not the tail wrapped. -/
theorem Inv.slot_tail (h : Inv k t q) :
    slot k t.state.tail = (t.state.head.toNat + q.length) % 2 ^ k.val := by
  rw [slot_eq, h.tail_eq, Nat.mod_mod_of_dvd _ (Nat.pow_dvd_pow 2 (Nat.le_of_lt k.isLt))]

/-- How full the queue looks through a head counter that lags less than a lap. -/
theorem Inv.toNat_sub (h : Inv k t q) {seen : UInt64} (hs : seen ≤ t.state.head)
    (hlap : t.state.head.toNat + q.length ≤ seen.toNat + 2 ^ k.val) :
    (t.state.tail - seen).toNat = t.state.head.toNat + q.length - seen.toNat := by
  have hpow : 2 ^ k.val ≤ 2 ^ 63 := Nat.pow_le_pow_right (by omega) (Nat.le_of_lt_succ k.isLt)
  have hseen := UInt64.le_iff_toNat_le.mp hs
  have hbound := seen.toNat_lt
  rw [UInt64.toNat_sub, h.tail_eq]
  omega

/-- Read through a head counter that lags, the queue looks at least as full as it is. -/
theorem Inv.room_of_stale (h : Inv k t q) {seen : UInt64} (hs : seen ≤ t.state.head)
    (hlap : t.state.head.toNat + q.length ≤ seen.toNat + 2 ^ k.val)
    (hroom : ¬ t.state.tail - seen ≥ capacity k) :
    t.state.head.toNat + q.length < seen.toNat + 2 ^ k.val := by
  rw [ge_iff_le, UInt64.le_iff_toNat_le, h.toNat_sub hs hlap, toNat_capacity] at hroom
  omega

theorem Inv.lap_of_head (h : Inv k t q) :
    t.state.head.toNat + q.length ≤ t.state.head.toNat + 2 ^ k.val :=
  Nat.add_le_add_left h.length_le _

/-- Read through the head counter itself, a queue that looks full is full. -/
theorem Inv.full_of_head (h : Inv k t q)
    (hfull : t.state.tail - t.state.head ≥ capacity k) : q.length = 2 ^ k.val := by
  rw [ge_iff_le, UInt64.le_iff_toNat_le, h.toNat_sub (UInt64.le_refl _) h.lap_of_head,
    toNat_capacity] at hfull
  have := h.length_le
  omega

theorem Inv.tail_le_count (h : Inv k t q) :
    t.state.tail.toNat ≤ t.state.head.toNat + q.length := by
  rw [h.tail_eq]
  exact Nat.mod_le _ _

/-- Read through a tail counter that lags, the queue looks at most as full as it is. -/
theorem nonempty_of_stale {head seen : UInt64} (hs : seen.toNat ≤ head.toNat + q.length)
    (hne : ¬ head ≥ seen) : head < seen ∧ q ≠ [] := by
  have hlt : head < seen := UInt64.not_le.mp hne
  refine ⟨hlt, ?_⟩
  rintro rfl
  have := UInt64.lt_iff_toNat_lt.mp hlt
  simp only [List.length_nil] at hs
  omega

theorem Inv.empty_of_tail (h : Inv k t q) (hfew : (pushes t.answers).length < 2 ^ 64)
    (he : t.state.head ≥ t.state.tail) : q = [] := by
  have := UInt64.le_iff_toNat_le.mp he
  have := h.tail_add hfew
  exact List.length_eq_zero_iff.mp (by omega)

/-- A step that only moves the producer, and may refresh its cache. -/
theorem Inv.moveProducer (h : Inv k t q) {pc : Producer T} {seen : UInt64}
    (hs : seen ≤ t.state.head)
    (hlap : t.state.head.toNat + q.length ≤ seen.toNat + 2 ^ k.val)
    (hp : ProducerOk k { t.state with producer := pc, cachedHead := seen } q) :
    Inv k ⟨{ t.state with producer := pc, cachedHead := seen }, t.answers⟩ q :=
  ⟨h.fifo, h.legal, h.tail_eq, h.head_eq, hs, hlap, h.cachedTail_le, h.slots, hp, h.consumer⟩

/-- A step that only moves the consumer, and may refresh its cache. -/
theorem Inv.moveConsumer (h : Inv k t q) {pc : Consumer T} {seen : UInt64}
    (hs : seen.toNat ≤ t.state.head.toNat + q.length)
    (hc : ConsumerOk { t.state with consumer := pc, cachedTail := seen } q) :
    Inv k ⟨{ t.state with consumer := pc, cachedTail := seen }, t.answers⟩ q :=
  ⟨h.fifo, h.legal, h.tail_eq, h.head_eq, h.cachedHead_le, h.tail_le, hs, h.slots, h.producer, hc⟩

/-- An answer that moves no value. -/
theorem Inv.answer (h : Inv k t q) {a : Answer T} (hpush : pushes [a] = []) (hpop : pops [a] = [])
    (hstep : (pushes t.answers).length < 2 ^ 64 → Step (2 ^ k.val) q a q) :
    Inv k ⟨t.state, t.answers ++ [a]⟩ q := by
  have hpushes : pushes (t.answers ++ [a]) = pushes t.answers := by
    rw [pushes_append, hpush, List.append_nil]
  have hpops : pops (t.answers ++ [a]) = pops t.answers := by
    rw [pops_append, hpop, List.append_nil]
  refine ⟨?_, ?_, h.tail_eq, ?_, h.cachedHead_le, h.tail_le, h.cachedTail_le, h.slots,
    h.producer, h.consumer⟩
  · rw [hpushes, hpops, h.fifo]
  · intro hfew
    rw [hpushes] at hfew
    exact (h.legal hfew).snoc (hstep hfew)
  · rw [hpops, h.head_eq]

/-- Writing the slot at the tail disturbs nothing that is held. -/
theorem Inv.writeSlot (h : Inv k t q) (v : T)
    (hroom : t.state.head.toNat + q.length < t.state.cachedHead.toNat + 2 ^ k.val) :
    Inv k ⟨{ t.state with
        buf := fun i => if i = slot k t.state.tail then v else t.state.buf i
        producer := .storeTail v t.state.tail }, t.answers⟩ q := by
  refine ⟨h.fifo, h.legal, h.tail_eq, h.head_eq, h.cachedHead_le, h.tail_le, h.cachedTail_le, ?_,
    ⟨rfl, hroom, by simp⟩, h.consumer⟩
  intro i w hi
  have hlt : i < q.length := (List.getElem?_eq_some_iff.mp hi).1
  have hlag := UInt64.le_iff_toNat_le.mp h.cachedHead_le
  have hne : (t.state.head.toNat + i) % 2 ^ k.val ≠ slot k t.state.tail := by
    rw [h.slot_tail, show t.state.head.toNat + q.length =
      t.state.head.toNat + i + (q.length - i) from by omega]
    exact Ne.symm (mod_ne_of_lt (by omega) (by omega))
  show (if _ = slot k t.state.tail then v else _) = w
  rw [if_neg hne]
  exact h.slots i w hi

/-- What the consumer relies on survives a push. -/
theorem consumerOk_append {s : State T} (hc : ConsumerOk s q) (v : T) :
    ConsumerOk s (q ++ [v]) := by
  unfold ConsumerOk at hc ⊢
  split at hc
  · trivial
  · trivial
  · exact hc
  · exact hc
  · exact ⟨hc.1, hc.2.1, by simp⟩
  · refine ⟨hc.1, hc.2.1, ?_⟩
    rw [List.head?_append, hc.2.2]
    rfl

/-- Storing the tail publishes the value just written. -/
theorem Inv.storeTail (h : Inv k t q) {v : T}
    (hroom : t.state.head.toNat + q.length < t.state.cachedHead.toNat + 2 ^ k.val)
    (hbuf : t.state.buf (slot k t.state.tail) = v) :
    Inv k ⟨{ t.state with tail := t.state.tail + 1, producer := .idle },
      t.answers ++ [.pushed v]⟩ (q ++ [v]) := by
  have hpushes : pushes (t.answers ++ [Answer.pushed v]) = pushes t.answers ++ [v] :=
    pushes_append ..
  have hpops : pops (t.answers ++ [Answer.pushed v]) = pops t.answers := by
    rw [pops_append]
    exact List.append_nil _
  have hlen : (q ++ [v]).length = q.length + 1 := List.length_append ..
  have hlag := UInt64.le_iff_toNat_le.mp h.cachedHead_le
  refine ⟨?_, ?_, ?_, ?_, h.cachedHead_le, ?_, ?_, ?_, trivial, consumerOk_append h.consumer v⟩
  · rw [hpushes, hpops, h.fifo, List.append_assoc]
  · intro hfew
    have hbefore : (pushes t.answers).length < 2 ^ 64 := by
      rw [hpushes, List.length_append] at hfew
      omega
    exact (h.legal hbefore).snoc (.pushed v (by omega))
  · show (t.state.tail + 1).toNat = (t.state.head.toNat + (q ++ [v]).length) % 2 ^ 64
    rw [UInt64.toNat_add, UInt64.toNat_one, h.tail_eq, hlen]
    omega
  · rw [hpops]
    exact h.head_eq
  · show t.state.head.toNat + (q ++ [v]).length ≤ t.state.cachedHead.toNat + 2 ^ k.val
    omega
  · show t.state.cachedTail.toNat ≤ t.state.head.toNat + (q ++ [v]).length
    have := h.cachedTail_le
    omega
  · intro i w hi
    by_cases hlt : i < q.length
    · rw [List.getElem?_append_left hlt] at hi
      exact h.slots i w hi
    · rw [List.getElem?_append_right (by omega)] at hi
      obtain ⟨hlen, hw⟩ := List.getElem?_eq_some_iff.mp hi
      simp only [List.length_singleton] at hlen
      simp only [List.getElem_singleton] at hw
      show t.state.buf ((t.state.head.toNat + i) % 2 ^ k.val) = w
      rw [← hw, ← hbuf, h.slot_tail, show i = q.length from by omega]

/-- **A producer step keeps the invariant.** -/
theorem Inv.produce (h : Inv k t q) (value : T) : ∃ q', Inv k (t.take k (.producer value)) q' := by
  have hp := h.producer
  unfold ProducerOk at hp
  simp only [Trace.take, SpscQueue.produce]
  cases hpc : t.state.producer with
  | idle => exact ⟨q, h.moveProducer h.cachedHead_le h.tail_le trivial⟩
  | loadTail v => exact ⟨q, h.moveProducer h.cachedHead_le h.tail_le rfl⟩
  | compare v tail =>
    simp only [hpc] at hp
    subst hp
    dsimp only
    split
    · exact ⟨q, h.moveProducer h.cachedHead_le h.tail_le rfl⟩
    · rename_i hroom
      exact ⟨q, h.moveProducer h.cachedHead_le h.tail_le
        ⟨rfl, h.room_of_stale h.cachedHead_le h.tail_le hroom⟩⟩
  | loadHead v tail =>
    simp only [hpc] at hp
    subst hp
    dsimp only
    split
    · rename_i hfull
      have hidle : Inv k ⟨{ t.state with producer := .idle, cachedHead := t.state.head },
        t.answers⟩ q := h.moveProducer (UInt64.le_refl _) h.lap_of_head trivial
      exact ⟨q, hidle.answer rfl rfl fun _ => .full v (h.full_of_head hfull)⟩
    · rename_i hroom
      exact ⟨q, h.moveProducer (UInt64.le_refl _) h.lap_of_head
        ⟨rfl, h.room_of_stale (UInt64.le_refl _) h.lap_of_head hroom⟩⟩
  | writeSlot v tail =>
    simp only [hpc] at hp
    obtain ⟨rfl, hroom⟩ := hp
    exact ⟨q, h.writeSlot v hroom⟩
  | storeTail v tail =>
    simp only [hpc] at hp
    obtain ⟨rfl, hroom, hbuf⟩ := hp
    exact ⟨q ++ [v], h.storeTail hroom hbuf⟩

/-- What the producer relies on survives a pop. -/
theorem producerOk_tail {s : State T} {v : T} (hp : ProducerOk k s (v :: q)) {head : UInt64}
    {pc : Consumer T} (hhead : head.toNat + q.length = s.head.toNat + (v :: q).length) :
    ProducerOk k { s with head := head, consumer := pc } q := by
  unfold ProducerOk at hp ⊢
  dsimp only
  rw [hhead]
  exact hp

/-- Storing the head releases the slot just read. -/
theorem Inv.storeHead {v : T} (h : Inv k t (v :: q)) (hlt : t.state.head < t.state.cachedTail) :
    Inv k ⟨{ t.state with head := t.state.head + 1, consumer := .idle },
      t.answers ++ [.popped v]⟩ q := by
  have hhead : (t.state.head + 1).toNat = t.state.head.toNat + 1 := by
    have := UInt64.lt_iff_toNat_lt.mp hlt
    have := t.state.cachedTail.toNat_lt
    rw [UInt64.toNat_add, UInt64.toNat_one]
    omega
  have hsum : (t.state.head + 1).toNat + q.length = t.state.head.toNat + (v :: q).length := by
    rw [hhead, List.length_cons]
    omega
  have hpushes : pushes (t.answers ++ [Answer.popped v]) = pushes t.answers := by
    rw [pushes_append]
    exact List.append_nil _
  have hpops : pops (t.answers ++ [Answer.popped v]) = pops t.answers ++ [v] := pops_append ..
  refine ⟨?_, ?_, hsum ▸ h.tail_eq, ?_, ?_, hsum ▸ h.tail_le, hsum ▸ h.cachedTail_le, ?_,
    producerOk_tail h.producer hsum, trivial⟩
  · rw [hpushes, hpops, h.fifo, List.append_assoc]
    rfl
  · intro hfew
    rw [hpushes] at hfew
    exact (h.legal hfew).snoc (.popped v q)
  · rw [hpops, List.length_append, ← h.head_eq]
    exact hhead
  · refine UInt64.le_trans h.cachedHead_le (UInt64.le_iff_toNat_le.mpr ?_)
    show t.state.head.toNat ≤ (t.state.head + 1).toNat
    omega
  · intro i w hi
    show t.state.buf (((t.state.head + 1).toNat + i) % 2 ^ k.val) = w
    rw [hhead, Nat.add_assoc, Nat.add_comm 1 i]
    exact h.slots (i + 1) w hi

/-- **A consumer step keeps the invariant.** -/
theorem Inv.consume (h : Inv k t q) : ∃ q', Inv k (t.take k .consumer) q' := by
  have hc := h.consumer
  unfold ConsumerOk at hc
  simp only [Trace.take, SpscQueue.consume]
  cases hpc : t.state.consumer with
  | idle => exact ⟨q, h.moveConsumer h.cachedTail_le trivial⟩
  | loadHead => exact ⟨q, h.moveConsumer h.cachedTail_le rfl⟩
  | compare head =>
    simp only [hpc] at hc
    subst hc
    dsimp only
    split
    · exact ⟨q, h.moveConsumer h.cachedTail_le rfl⟩
    · rename_i hne
      exact ⟨q, h.moveConsumer h.cachedTail_le ⟨rfl, nonempty_of_stale h.cachedTail_le hne⟩⟩
  | loadTail head =>
    simp only [hpc] at hc
    subst hc
    dsimp only
    split
    · -- after a wrap of the tail the queue may look empty when it is not
      rename_i he
      have hidle : Inv k ⟨{ t.state with consumer := .idle, cachedTail := t.state.tail },
        t.answers⟩ q := h.moveConsumer h.tail_le_count trivial
      refine ⟨q, hidle.answer rfl rfl fun hfew => ?_⟩
      obtain rfl := h.empty_of_tail hfew he
      exact .empty
    · rename_i hne
      exact ⟨q, h.moveConsumer h.tail_le_count ⟨rfl, nonempty_of_stale h.tail_le_count hne⟩⟩
  | readSlot head =>
    simp only [hpc] at hc
    obtain ⟨rfl, hlt, hne⟩ := hc
    refine ⟨q, h.moveConsumer h.cachedTail_le ⟨rfl, hlt, ?_⟩⟩
    obtain ⟨v, rest, rfl⟩ := List.exists_cons_of_ne_nil hne
    have := h.slots 0 v rfl
    rw [slot_eq, ← this]
    rfl
  | storeHead head out =>
    simp only [hpc] at hc
    obtain ⟨rfl, hlt, hhd⟩ := hc
    obtain ⟨rest, rfl⟩ := List.head?_eq_some_iff.mp hhd
    exact ⟨rest, h.storeHead hlt⟩

end Invariant

/-! ## Every interleaving -/

/-- **The invariant holds along every schedule.** -/
theorem inv_run (k : Fin 64) (default : T) (schedule : List (Turn T)) :
    ∃ q, Inv k (run k default schedule) q := by
  refine Runs.run_invariant (I := fun t : Trace T => ∃ q, Inv k t q) ?_ ⟨[], inv_initial k default⟩
    schedule
  rintro t turn ⟨q, hq⟩
  cases turn with
  | producer value => exact hq.produce value
  | consumer => exact hq.consume

/-- **What was popped is a prefix of what was pushed**, along every schedule and for any
number of pushes: past 2^64 pushes the consumer may wait for ever, but it pops nothing
wrong. -/
theorem pops_isPrefix_pushes (k : Fin 64) (default : T) (schedule : List (Turn T)) :
    pops (run k default schedule).answers <+: pushes (run k default schedule).answers := by
  obtain ⟨q, hq⟩ := inv_run k default schedule
  exact ⟨q, hq.fifo.symm⟩

theorem Inv.full_step {k : Fin 64} {t : Trace T} {q : List T} (h : Inv k t q) {value v : T}
    (hans : (SpscQueue.produce k value t.state).2 = some (.full v)) : q.length = 2 ^ k.val := by
  have hp := h.producer
  unfold ProducerOk at hp
  unfold SpscQueue.produce at hans
  split at hans
  · cases hans
  · cases hans
  · split at hans <;> cases hans
  · rename_i w tail hpc
    simp only [hpc] at hp
    subst hp
    dsimp only at hans
    split at hans
    · exact h.full_of_head ‹_›
    · cases hans
  · cases hans
  · cases hans

theorem Inv.empty_step {k : Fin 64} {t : Trace T} {q : List T} (h : Inv k t q)
    (hfew : (pushes t.answers).length < 2 ^ 64)
    (hans : (SpscQueue.consume k t.state).2 = some .empty) : q = [] := by
  have hc := h.consumer
  unfold ConsumerOk at hc
  unfold SpscQueue.consume at hans
  split at hans
  · cases hans
  · cases hans
  · split at hans <;> cases hans
  · rename_i head hpc
    simp only [hpc] at hc
    subst hc
    dsimp only at hans
    split at hans
    · exact h.empty_of_tail hfew ‹_›
    · cases hans
  · cases hans
  · cases hans

/-- The producer never writes the slot the consumer is reading. -/
theorem Inv.slots_apart {k : Fin 64} {t : Trace T} {q : List T} (h : Inv k t q) {v : T}
    {tail head : UInt64} (hp : t.state.producer = .writeSlot v tail)
    (hc : t.state.consumer = .readSlot head) : slot k tail ≠ slot k head := by
  have hpo := h.producer
  have hco := h.consumer
  simp only [ProducerOk, hp] at hpo
  simp only [ConsumerOk, hc] at hco
  obtain ⟨rfl, hroom⟩ := hpo
  obtain ⟨rfl, -, hne⟩ := hco
  have hlag := UInt64.le_iff_toNat_le.mp h.cachedHead_le
  rw [h.slot_tail, slot_eq]
  exact mod_ne_of_lt (List.length_pos_iff.mpr hne) (by omega)

/-- **The ring is a bounded queue under every interleaving.**  Along any schedule with
fewer than 2^64 pushes: the answers are those of a sequential queue of that capacity, so
what was popped is a prefix of what was pushed; the counters and their caches are in
order; a step that answers `full` finds `Capacity` elements, one that answers `empty`
finds none, and the slot being written is not the slot being read. -/
theorem ring_is_bounded_fifo (k : Fin 64) (default : T) (schedule : List (Turn T))
    (hfew : (pushes (run k default schedule).answers).length < 2 ^ 64) :
    let t := run k default schedule
    (∃ q, BoundedFifo.Run (2 ^ k.val) t.answers q) ∧
    pops t.answers <+: pushes t.answers ∧
    t.state.head ≤ t.state.tail ∧
    t.state.tail.toNat ≤ t.state.head.toNat + (capacity k).toNat ∧
    t.state.cachedHead ≤ t.state.head ∧ t.state.cachedTail ≤ t.state.tail ∧
    (∀ value v, (produce k value t.state).2 = some (.full v) →
      (pushes t.answers).length = (pops t.answers).length + (capacity k).toNat) ∧
    ((consume k t.state).2 = some .empty →
      (pushes t.answers).length = (pops t.answers).length) ∧
    (∀ v tail head, t.state.producer = .writeSlot v tail → t.state.consumer = .readSlot head →
      slot k tail ≠ slot k head) := by
  intro t
  obtain ⟨q, hq⟩ : ∃ q, Inv k t q := inv_run k default schedule
  have htail := hq.tail_add hfew
  have hrun := hq.legal hfew
  have hlen : (pushes t.answers).length = (pops t.answers).length + q.length := by
    rw [hrun.pushes_eq, List.length_append]
  refine ⟨⟨q, hrun⟩, ⟨q, hrun.pushes_eq.symm⟩, UInt64.le_iff_toNat_le.mpr (by omega), ?_,
    hq.cachedHead_le, UInt64.le_iff_toNat_le.mpr (htail ▸ hq.cachedTail_le), ?_, ?_,
    fun v tail head hp hc => hq.slots_apart hp hc⟩
  · have := hrun.length_le
    rw [toNat_capacity]
    omega
  · intro value v hans
    rw [hlen, hq.full_step hans, toNat_capacity]
  · intro hans
    rw [hlen, hq.empty_step hfew hans]
    rfl

/-- Two steps of the producer to one of the consumer. -/
def twoToOne : List (Turn Nat) :=
  (List.range 18).flatMap fun i => [.producer i, .producer i, .consumer]

/-- On a ring of capacity 2 both slots are taken a second time, and pushes fail in between. -/
theorem ring_is_bounded_fifo_wraps :
    let t := run 1 0 twoToOne
    t.answers = [.pushed 0, .pushed 2, .popped 0, .pushed 5, .full 8, .full 10, .popped 2,
      .pushed 12, .full 15, .popped 5] ∧
    (∃ q, BoundedFifo.Run 2 t.answers q) ∧ pops t.answers <+: pushes t.answers := by
  obtain ⟨hlegal, hprefix, -⟩ := ring_is_bounded_fifo 1 0 twoToOne (by decide +kernel)
  exact ⟨by decide +kernel, hlegal, hprefix⟩

end SpscQueue
end Asmm
