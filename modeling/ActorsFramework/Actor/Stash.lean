import ActorsFramework.Lib.PartitionPoint
import ActorsFramework.Actor.Priority

/-!
# Messages put back

A message that `next_message` has returned may be put into the second part of the cache
by `push_to_cache`, from where `consume_from_cache` hands it to a handler. Where
`is_high_priority` is any predicate, `push_to_cache` finds the place of a message of
high priority by `std::partition_point`, which asks for a range that is ordered
already.

`stash_order`: over any calls of all five functions the range is ordered whenever the
search begins; no message is lost or in two places; both parts of the cache keep the
messages of each priority in their order; and `has_next_message` says what
`next_message` is going to return.
-/

namespace ActorsFramework.Detail.Mailbox

open Lib

variable {α : Type*}

/-- `push_to_cache`, with the search. -/
def pushToCacheAt (hp : α → Bool) (m : α) (q : Mailbox α) : Mailbox α :=
  let l := q.cache.second
  { q with cache := { q.cache with
      second := if hp m then l.insertIdx (partitionPoint hp l) m else l ++ [m] } }

/-- `consume_from_cache`: the message that a handler is given and that is erased then. -/
def consumeFromCache (q : Mailbox α) : Mailbox α × Option α :=
  match q.cache.second with
  | [] => (q, none)
  | m :: l => ({ q with cache := { q.cache with second := l } }, some m)

/-- The mailbox, the message the reader holds, and what has become of the messages. -/
structure Stash (α : Type*) where
  /-- The mailbox. -/
  mailbox : Mailbox α := {}
  /-- `ptr`. -/
  held : Option α := none
  /-- The messages that `enqueue` was called with, in order. -/
  sent : List α := []
  /-- The messages that `next_message` returned, in order. -/
  returned : List α := []
  /-- The messages that `push_to_cache` was called with, in order. -/
  stashed : List α := []
  /-- The messages that `consume_from_cache` handed to a handler, in order. -/
  consumed : List α := []
  /-- The messages that were deleted when `ptr` was assigned to. -/
  dropped : List α := []

/-- A call, taken as a whole. -/
inductive StashCall (α : Type*) where
  /-- `enqueue`. -/
  | enqueue (m : α)
  /-- `ptr = next_message()`. -/
  | nextMessage
  /-- `push_to_cache(std::move(ptr))`; its assertion is that `ptr` is not null. -/
  | pushToCache
  /-- `consume_from_cache`. -/
  | consumeFromCache
  deriving DecidableEq

/-- Any calls, on a mailbox that is open and empty. -/
def stash (hp : α → Bool) : System (Stash α) (StashCall α) where
  Init s := s = {}
  step s
    | .enqueue m => some { s with mailbox := (s.mailbox.enqueue m).1, sent := s.sent ++ [m] }
    | .nextMessage =>
      match s.mailbox.nextMessageAt hp with
      | .error _ => none
      | .ok (q, r) =>
        some { s with
          mailbox := q
          held := r
          returned := s.returned ++ r.toList
          dropped := s.dropped ++ s.held.toList }
    | .pushToCache =>
      match s.held with
      | none => none
      | some m =>
        some { s with
          mailbox := s.mailbox.pushToCacheAt hp m
          held := none
          stashed := s.stashed ++ [m] }
    | .consumeFromCache =>
      match s.mailbox.consumeFromCache with
      | (q, r) => some { s with mailbox := q, consumed := s.consumed ++ r.toList }

/-! ### The second part of the cache -/

section Second

variable {hp : α → Bool} {l : List α}

/-- A message of high priority goes behind those at the front. -/
theorem insertIdx_highFirst (h : HighFirst hp l) (m : α) :
    l.insertIdx (partitionPoint hp l) m = l.takeWhile hp ++ m :: l.dropWhile hp := by
  obtain ⟨high, normal, rfl, hh, hn⟩ := h
  have htake : normal.takeWhile hp = [] := by
    cases normal with
    | nil => rfl
    | cons x normal => rw [List.takeWhile_cons, hn x List.mem_cons_self, if_neg Bool.false_ne_true]
  have hdrop : normal.dropWhile hp = normal := by
    cases normal with
    | nil => rfl
    | cons x normal => rw [List.dropWhile_cons, hn x List.mem_cons_self, if_neg Bool.false_ne_true]
  rw [partitionPoint_append hh hn, insertIdx_length, List.takeWhile_append_of_pos hh,
    List.dropWhile_append_of_pos hh, htake, hdrop, List.append_nil]

/-- **The search is only a way to pass over the messages at the front.** -/
theorem pushToCacheAt_eq {q : Mailbox α} (h : HighFirst hp q.cache.second) (m : α) :
    q.pushToCacheAt hp m = q.pushToCache hp m := by
  rw [pushToCacheAt, pushToCache, insertIdx_highFirst h]

/-- A message that is put into an ordered list: it stays ordered, and nobody is overtaken by a
message of the same priority. -/
theorem pushToCache_second {q : Mailbox α} (h : HighFirst hp q.cache.second) (m : α) :
    HighFirst hp (q.pushToCache hp m).cache.second ∧
      ∀ b, (q.pushToCache hp m).cache.second.filter (hp · = b) =
        q.cache.second.filter (hp · = b) ++ [m].filter (hp · = b) := by
  rw [← pushToCacheAt_eq h, pushToCacheAt]
  obtain ⟨high, normal, hl, hh, hn⟩ := h
  rw [hl]
  cases hm : hp m with
  | true =>
    have hnone : normal.filter (hp · = true) = [] := by
      rw [List.filter_eq_nil_iff]
      intro x hx
      simp [hn x hx]
    rw [if_pos rfl, partitionPoint_append hh hn, insertIdx_length]
    refine ⟨⟨high ++ [m], normal, by simp, ?_, hn⟩, fun b => ?_⟩
    · intro x hx
      rcases List.mem_append.mp hx with hx | hx
      · exact hh x hx
      · rw [List.mem_singleton.mp hx, hm]
    · cases b with
      | true => rw [List.filter_append, List.filter_append, List.filter_cons, hnone]; simp [hm]
      | false => simp [hm]
  | false =>
    rw [if_neg Bool.false_ne_true]
    refine ⟨⟨high, normal ++ [m], by simp, hh, ?_⟩, fun b => by simp only [List.filter_append]⟩
    intro x hx
    rcases List.mem_append.mp hx with hx | hx
    · exact hn x hx
    · rw [List.mem_singleton.mp hx, hm]

/-- The rest of an ordered list; and where a normal message is first, nothing else is behind
it. -/
theorem highFirst_tail {m : α} (h : HighFirst hp (m :: l)) :
    HighFirst hp l ∧ (hp m = false → ∀ x ∈ l, hp x = false) := by
  obtain ⟨high, normal, hl, hh, hn⟩ := h
  cases high with
  | nil =>
    obtain rfl : m :: l = normal := hl
    have hrest : ∀ x ∈ l, hp x = false := fun x hx => hn x (List.mem_cons_of_mem m hx)
    exact ⟨⟨[], l, rfl, List.forall_mem_nil _, hrest⟩, fun _ => hrest⟩
  | cons x high =>
    obtain ⟨rfl, rfl⟩ := List.cons.inj hl
    refine ⟨⟨high, normal, rfl, fun y hy => hh y (List.mem_cons_of_mem m hy), hn⟩, ?_⟩
    intro hm
    rw [hh m List.mem_cons_self] at hm
    cases hm

end Second

/-! ### Any calls -/

/-- The invariant. -/
structure Stash.Kept (hp : α → Bool) (s : Stash α) : Prop where
  isOpen : s.mailbox.Open
  first : HighFirst hp s.mailbox.cache.first
  second : HighFirst hp s.mailbox.cache.second
  /-- What `next_message` returns, and what it is going to. -/
  fifo : ∀ b, (s.returned ++ s.mailbox.contents).filter (hp · = b) = s.sent.filter (hp · = b)
  /-- What is consumed, and what is going to be. -/
  back : ∀ b, (s.consumed ++ s.mailbox.cache.second).filter (hp · = b) = s.stashed.filter (hp · = b)
  /-- What has become of the messages that were returned. -/
  placed : s.returned.Perm (s.dropped ++ s.stashed ++ s.held.toList)

section Kept

variable {hp : α → Bool} {s : Stash α}

theorem Stash.Kept.enqueue (h : s.Kept hp) (m : α) :
    Stash.Kept hp { s with mailbox := (s.mailbox.enqueue m).1, sent := s.sent ++ [m] } := by
  have hne := h.isOpen.ne_closed
  have hcache := cache_enqueue s.mailbox m
  refine ⟨open_enqueue hne m, ?_, ?_, fun b => ?_, fun b => ?_, h.placed⟩
  · rw [hcache]
    exact h.first
  · rw [hcache]
    exact h.second
  · have hcontents : (s.mailbox.enqueue m).1.contents = s.mailbox.contents ++ [m] := by
      rw [contents, contents, waiting_enqueue hne, hcache, List.append_assoc]
    dsimp only
    rw [hcontents, ← List.append_assoc, List.filter_append, h.fifo b, List.filter_append]
  · rw [hcache]
    exact h.back b

theorem Stash.Kept.nextMessage (h : s.Kept hp) {q : Mailbox α} {r : Option α}
    (hq : s.mailbox.nextMessage hp = .ok (q, r)) :
    Stash.Kept hp { s with
      mailbox := q
      held := r
      returned := s.returned ++ r.toList
      dropped := s.dropped ++ s.held.toList } := by
  obtain ⟨q', r', hq', ho, h₂, h₁, hc, -⟩ := nextMessage_spec h.isOpen h.first
  rw [hq] at hq'
  cases hq'
  refine ⟨ho, h₁, ?_, fun b => ?_, fun b => ?_, ?_⟩
  · rw [h₂]
    exact h.second
  · dsimp only
    rw [List.append_assoc, List.filter_append, hc b, ← List.filter_append]
    exact h.fifo b
  · dsimp only
    rw [h₂]
    exact h.back b
  · -- what was held is deleted
    have hmove : (s.dropped ++ s.stashed ++ s.held.toList).Perm
        (s.dropped ++ s.held.toList ++ s.stashed) := by
      rw [List.append_assoc, List.append_assoc]
      exact List.perm_append_comm.append_left _
    exact (h.placed.trans hmove).append_right _

theorem Stash.Kept.pushToCache (h : s.Kept hp) {m : α} (hm : s.held = some m) :
    Stash.Kept hp { s with
      mailbox := s.mailbox.pushToCacheAt hp m
      held := none
      stashed := s.stashed ++ [m] } := by
  rw [pushToCacheAt_eq h.second]
  obtain ⟨hs, hf⟩ := pushToCache_second h.second m
  refine ⟨h.isOpen, h.first, hs, h.fifo, fun b => ?_, ?_⟩
  · dsimp only
    rw [List.filter_append, hf b, ← List.append_assoc, ← List.filter_append, h.back b,
      List.filter_append]
  · have hp := h.placed
    rw [hm] at hp
    simpa using hp

theorem Stash.Kept.consumeFromCache (h : s.Kept hp) {m : α} {l : List α}
    (hl : s.mailbox.cache.second = m :: l) :
    Stash.Kept hp { s with
      mailbox := { s.mailbox with cache := { s.mailbox.cache with second := l } }
      consumed := s.consumed ++ [m] } := by
  refine ⟨h.isOpen, h.first, ?_, h.fifo, fun b => ?_, h.placed⟩
  · exact (highFirst_tail (hl ▸ h.second)).1
  · have hb := h.back b
    rw [hl] at hb
    simpa using hb

theorem kept_of_reachable (h : (stash hp).Reachable s) : s.Kept hp := by
  refine h.invariant ?_ ?_
  · rintro _ rfl
    have hnil : HighFirst hp [] := ⟨[], [], rfl, List.forall_mem_nil _, List.forall_mem_nil _⟩
    exact ⟨⟨[], rfl⟩, hnil, hnil, fun _ => rfl, fun _ => rfl, .nil⟩
  · intro s c s' hI hs
    cases c with
    | enqueue m =>
      cases hs
      exact hI.enqueue m
    | nextMessage =>
      simp only [stash, nextMessageAt_eq] at hs
      split at hs
      next => cases hs
      next q r hq =>
        cases hs
        exact hI.nextMessage hq
    | pushToCache =>
      simp only [stash] at hs
      split at hs
      next => cases hs
      next m hm =>
        cases hs
        exact hI.pushToCache hm
    | consumeFromCache =>
      simp only [stash] at hs
      cases hs
      cases hl : s.mailbox.cache.second with
      | nil => simpa [Mailbox.consumeFromCache, hl] using hI
      | cons m l => simpa [Mailbox.consumeFromCache, hl] using hI.consumeFromCache hl

/-- **The order of messages put back.** After any calls: the second part of the cache is ordered, as
`std::partition_point` demands, and the place it finds is behind the last message of high
priority; every message sent has been deleted, handed on from the cache, is held, or is still in
the mailbox, in one of these only; the messages of each priority leave both parts of the cache in
the order in which they came; a normal message is consumed only where no other kind is left in the
second part; and `has_next_message` is true where `next_message` is going to return a message. -/
theorem stash_order (h : (stash hp).Reachable s) :
    HighFirst hp s.mailbox.cache.second ∧
    (∀ m, s.mailbox.pushToCacheAt hp m = s.mailbox.pushToCache hp m) ∧
    (s.dropped ++ s.consumed ++ s.held.toList ++ s.mailbox.cache.second ++ s.mailbox.contents).Perm
      s.sent ∧
    (∀ b, s.returned.filter (hp · = b) ++ s.mailbox.contents.filter (hp · = b) =
      s.sent.filter (hp · = b)) ∧
    (∀ b, s.consumed.filter (hp · = b) ++ s.mailbox.cache.second.filter (hp · = b) =
      s.stashed.filter (hp · = b)) ∧
    (∀ q m, s.mailbox.consumeFromCache = (q, some m) → hp m = false →
      ∀ x ∈ q.cache.second, hp x = false) ∧
    ∃ q r, s.mailbox.nextMessageAt hp = .ok (q, r) ∧ s.mailbox.hasNextMessage = .ok r.isSome := by
  have hI := kept_of_reachable h
  refine ⟨hI.second, pushToCacheAt_eq hI.second, ?_, fun b => ?_, fun b => ?_, ?_, ?_⟩
  · have hsent := perm_of_filter hI.fifo
    have hback := perm_of_filter hI.back
    refine List.Perm.trans ?_ ((hI.placed.append_right _).symm.trans hsent)
    refine List.Perm.append_right _ ?_
    -- what was put back has been consumed, or is in the second part
    calc s.dropped ++ s.consumed ++ s.held.toList ++ s.mailbox.cache.second
        = s.dropped ++ (s.consumed ++ (s.held.toList ++ s.mailbox.cache.second)) := by
          simp only [List.append_assoc]
      List.Perm _ (s.dropped ++ (s.consumed ++ (s.mailbox.cache.second ++ s.held.toList))) :=
          (List.perm_append_comm.append_left _).append_left _
      _ = s.dropped ++ ((s.consumed ++ s.mailbox.cache.second) ++ s.held.toList) := by
          simp only [List.append_assoc]
      List.Perm _ (s.dropped ++ (s.stashed ++ s.held.toList)) :=
          (hback.append_right _).append_left _
      _ = s.dropped ++ s.stashed ++ s.held.toList := (List.append_assoc _ _ _).symm
  · rw [← List.filter_append]
    exact hI.fifo b
  · rw [← List.filter_append]
    exact hI.back b
  · intro q m hc
    unfold Mailbox.consumeFromCache at hc
    split at hc
    next => cases hc
    next m' l hl =>
      cases hc
      exact (highFirst_tail (hl ▸ hI.second)).2
  · obtain ⟨q, r, hq, -, -, -, hc, -, hnone⟩ := nextMessage_spec hI.isOpen hI.first
    refine ⟨q, r, by rw [nextMessageAt_eq, hq], ?_⟩
    rw [hasNextMessage_open hI.isOpen]
    -- a message is returned exactly where there is one
    have hperm := perm_of_filter hc
    cases r with
    | some m =>
      cases hcon : s.mailbox.contents with
      | nil =>
        rw [hcon] at hperm
        cases hperm.eq_nil
      | cons => rfl
    | none =>
      rw [hnone rfl] at hperm
      rw [← hperm.nil_eq]
      rfl

/-- Messages from `10` on are of high priority. Of four that are put back, `12` and then `13` come
before `1` and `2`. -/
theorem stash_order_five : ∃ s : Stash ℕ, (stash (10 ≤ ·)).Reachable s ∧
    s.mailbox.cache.second = [13, 1, 2] ∧ s.consumed = [12] ∧
      s.mailbox.pushToCacheAt (10 ≤ ·) 14 = s.mailbox.pushToCache (10 ≤ ·) 14 ∧
      s.mailbox.hasNextMessage = .ok true := by
  have hr : ∃ s, (stash (10 ≤ ·)).Reachable s ∧ s.mailbox.cache.second = [13, 1, 2] ∧
      s.consumed = [12] ∧ s.mailbox.hasNextMessage = .ok true :=
    ⟨_, System.Reachable.of_actions rfl [.enqueue 1, .enqueue 2, .nextMessage, .pushToCache,
      .nextMessage, .pushToCache, .enqueue 12, .enqueue 13, .nextMessage, .pushToCache, .nextMessage,
      .pushToCache, .consumeFromCache, .enqueue 3] rfl, rfl, rfl, rfl⟩
  obtain ⟨s, hs, h₂, hc, hn⟩ := hr
  exact ⟨s, hs, h₂, hc, (stash_order hs).2.1 14, hn⟩

end Kept

end ActorsFramework.Detail.Mailbox
