import ActorsFramework.Actor.History

/-!
# What a run leaves behind

One `run` with no other thread involved, from any open mailbox, with handlers
that send their own actor what a sequence of lists says: `sent i` while the
`i`-th message is handled. `run` returns `awaiting` on all of its ways out, also
on the one where its throughput is used up and messages are left; a worker then
releases the job instead of putting it back. `run_honest_iff` says exactly when
nothing is left, which is when `awaiting` is right, in terms of what the mailbox
holds at the start, of `max_throughput`, and of how much the handlers send.
-/

namespace ActorsFramework.Actor

open Detail Executor

variable {ι α : Type*} [DecidableEq ι]

/-- Handlers that send `a` the messages `sent i` when the `i`-th message is handled. -/
def oracle (a : ι) (sent : ℕ → List α) : Handler ι ℕ α :=
  fun _ _ i => ((sent i).map fun m => (a, m), i + 1)

/-- How many messages the first `k` handled messages send. -/
def sentBefore (sent : ℕ → List α) (k : ℕ) : ℕ := ((List.range k).map fun i => (sent i).length).sum

theorem sentBefore_succ (sent : ℕ → List α) (k : ℕ) :
    sentBefore sent (k + 1) = sentBefore sent k + (sent k).length := by
  simp [sentBefore, List.range_succ]

/-- What `run` should return, and what the worker should do then: `awaiting` only if no message
is left, and with messages left `resume`, so that the job is put back. -/
def Honest (left : List α) (r : ExecutableResult) : Prop :=
  (r = .awaiting → left = []) ∧
    (left ≠ [] → r = .resume ∧ r.disposition = .resumeJobLater)

/-- How much of the first part of the cache is left when the second part is used up: it begins
with `first` messages, and `d` messages are in the second part. -/
def firstLeft (sent : ℕ → List α) (first total d : ℕ) : ℕ :=
  if d = 0 then first else total + sentBefore sent (d - 1) - d

/-- Of `total` messages, `first` of them in the first part of the cache, and of `d` more in the
second part, none is left when the throughput is used up. The second part is consumed first,
one message for each that is fetched. Then either nothing is left in the first part, and
the messages are handled until at some `k` as many have arrived as were handled; or all
that are there are fetched into the first part, and each takes up one round. -/
def Fits (sent : ℕ → List α) (maxThroughput first total d : ℕ) : Prop :=
  d ≤ maxThroughput ∧ (∀ j < d, j < total + sentBefore sent j) ∧
    if firstLeft sent first total d = 0 then
      ∃ k, d ≤ k ∧ k ≤ maxThroughput ∧ total + sentBefore sent k ≤ k
    else total + sentBefore sent d ≤ maxThroughput

section Run

variable {a : ι} {sent : ℕ → List α} {w : World ι ℕ α} {i : ℕ}

variable (a sent) in
/-- One message handled: its successors are behind the others. -/
theorem consume_oracle (hu : w.user = i) (ho : (w.mailbox a).Open) (m : α) :
    ∃ w', consume deferred (oracle a sent) a m w = .ok w' ∧ w'.user = i + 1 ∧ (w'.mailbox a).Open ∧
      (w'.mailbox a).cache = (w.mailbox a).cache ∧
      (w'.mailbox a).contents.length = (w.mailbox a).contents.length + (sent i).length := by
  obtain ⟨w', hw, hu', hr⟩ := consume_deferred (oracle a sent) (a := a) (m := m) (w := w)
    (by
      intro p hp
      obtain ⟨x, -, rfl⟩ := List.mem_map.mp hp
      exact ho)
  have hra := hr a
  rw [show (oracle a sent a m w.user).1 = (sent i).map fun m => (a, m) by rw [hu]; rfl,
    sentTo_map] at hra
  refine ⟨w', hw, by rw [hu', hu]; rfl, hra.isOpen ho, hra.cache, ?_⟩
  rw [hra.contents, List.length_append]
  rfl

/-- The first loop after `j` rounds. As long as the second part of the cache lasts, each round
fetches everything, drops the oldest message and handles one of the second part; then
each round drops one. -/
structure CacheRounds (a : ι) (sent : ℕ → List α) (first total d j : ℕ) (w : World ι ℕ α) : Prop where
  /-- The mailbox is open. -/
  isOpen : (w.mailbox a).Open
  /-- How many messages were handled. -/
  user : w.user = min j d
  /-- What is left of the second part. -/
  secondPart : (w.mailbox a).cache.second.length = d - j
  /-- How many messages there are. -/
  contents : (w.mailbox a).contents.length + j = total + sentBefore sent (min j d)
  /-- How many of them are in the first part of the cache. -/
  firstPart : (w.mailbox a).cache.first.length =
    if j ≤ d then firstLeft sent first total j else (w.mailbox a).contents.length
  /-- There was a message to fetch in each round. -/
  fetched : ∀ k < min j d, k < total + sentBefore sent k
  /-- Beyond the second part, the first lasted. -/
  beyond : d < j → firstLeft sent first total d ≠ 0

/-- The second loop after `j` rounds in all, those of the first loop included. -/
inductive MainRounds (a : ι) (sent : ℕ → List α) (maxThroughput first total d j : ℕ)
    (w : World ι ℕ α) : Prop where
  /-- The first loop was left with the second part of the cache not used up. -/
  | short : j < d → j = maxThroughput → (w.mailbox a).Open → (w.mailbox a).cache.second ≠ [] →
      MainRounds a sent maxThroughput first total d j w
  /-- The first loop dropped all that was there after the second part of the cache was used up. -/
  | dropped : d ≤ j → (w.mailbox a).Open → (w.mailbox a).cache.second = [] →
      (∀ k < d, k < total + sentBefore sent k) → firstLeft sent first total d ≠ 0 →
      (w.mailbox a).contents.length + j = total + sentBefore sent d →
      ((w.mailbox a).contents ≠ [] → j = maxThroughput) →
      MainRounds a sent maxThroughput first total d j w
  /-- The second loop handles one message after the other. -/
  | handling : d ≤ j → (w.mailbox a).Open → (w.mailbox a).cache.second = [] →
      (∀ k < j, k < total + sentBefore sent k) → firstLeft sent first total d = 0 →
      (w.mailbox a).contents.length + j = total + sentBefore sent j → w.user = j →
      MainRounds a sent maxThroughput first total d j w

variable {maxThroughput first total d j : ℕ}

omit [DecidableEq ι] in
theorem CacheRounds.start (ho : (w.mailbox a).Open) (hu : w.user = 0) :
    CacheRounds a sent (w.mailbox a).cache.first.length (w.mailbox a).contents.length
      (w.mailbox a).cache.second.length 0 w where
  isOpen := ho
  user := by simp [hu]
  secondPart := by simp
  contents := by simp [sentBefore]
  firstPart := by simp [firstLeft]
  fetched k hk := by simp at hk
  beyond h := by omega

omit [DecidableEq ι] in
/-- While the second part of the cache lasts, every round has handled a message. -/
theorem CacheRounds.lt_of_cons (h : CacheRounds a sent first total d j w) {x : α} {xs : List α}
    (hs : (w.mailbox a).cache.second = x :: xs) : j < d := by
  have := h.secondPart
  rw [hs, List.length_cons] at this
  omega

omit [DecidableEq ι] in
/-- Where the first loop goes on beyond the second part of the cache, the first part had
messages when the second was used up. -/
theorem CacheRounds.lasted (h : CacheRounds a sent first total d j w)
    (hne : (w.mailbox a).cache.empty = false) (hs : (w.mailbox a).cache.second = []) :
    d ≤ j ∧ firstLeft sent first total d ≠ 0 := by
  have hjd : d ≤ j := by
    have := h.secondPart
    rw [hs, List.length_nil] at this
    omega
  refine ⟨hjd, ?_⟩
  rcases Nat.lt_or_ge d j with hlt | hge
  · exact h.beyond hlt
  · obtain rfl : d = j := by omega
    have hf := h.firstPart
    rw [if_pos le_rfl] at hf
    rw [← hf]
    intro hz
    simp [Cache.empty, hs, List.length_eq_zero_iff.mp hz] at hne

/-- A round of the first loop that handles a message of the second part of the cache. -/
theorem CacheRounds.handle (h : CacheRounds a sent first total d j w) {m x : α} {l xs : List α}
    (hc : (w.mailbox a).contents = m :: l) (hs : (w.mailbox a).cache.second = x :: xs) :
    ∃ w', consumeFromCache deferred (oracle a sent) a
        (w.setMailbox a ((w.mailbox a).fetched l)) = .ok w' ∧
      CacheRounds a sent first total d (j + 1) w' := by
  have hjd := h.lt_of_cons hs
  have hmin : min j d = j ∧ min (j + 1) d = j + 1 := by omega
  have hlen := h.contents
  rw [hc, List.length_cons, hmin.1] at hlen
  have hu : w.user = j := by rw [h.user, hmin.1]
  obtain ⟨w', hw, hu', ho', hca, hco⟩ := consume_oracle a sent
    (w := w.setMailbox a ((w.mailbox a).fetched l)) hu (by simpa using Mailbox.open_fetched _ _) x
  simp only [World.mailbox_setMailbox_self, Mailbox.cache_fetched, Mailbox.contents_fetched,
    hs] at hca hco
  refine ⟨w'.setMailbox a { (w'.mailbox a) with cache := ⟨l, xs⟩ },
    by simp [consumeFromCache, hs, hw, Except.bind, hca], ?_⟩
  have hcont : ({ (w'.mailbox a) with cache := ⟨l, xs⟩ } : Mailbox α).contents =
      (w'.mailbox a).contents := by
    unfold Mailbox.contents
    rw [hca]
    rfl
  refine ⟨?_, ?_, ?_, ?_, ?_, ?_, fun hlt => by omega⟩
  · rw [World.mailbox_setMailbox_self]
    exact ho'
  · rw [World.user_setMailbox, hu', hmin.2]
  · have := h.secondPart
    rw [hs, List.length_cons] at this
    simp only [World.mailbox_setMailbox_self]
    omega
  · rw [World.mailbox_setMailbox_self, hcont, hco, hmin.2, sentBefore_succ]
    omega
  · rw [if_pos (by omega), firstLeft, if_neg (by omega)]
    simp only [World.mailbox_setMailbox_self, Nat.add_sub_cancel]
    omega
  · intro k hk
    rcases Nat.lt_or_ge k j with hlt | hge
    · exact h.fetched k (by omega)
    · obtain rfl : k = j := by omega
      omega

/-- A round of the first loop beyond the second part of the cache: the message taken is dropped. -/
theorem CacheRounds.drop (h : CacheRounds a sent first total d j w)
    (hne : (w.mailbox a).cache.empty = false) {m : α} {l : List α}
    (hc : (w.mailbox a).contents = m :: l) (hs : (w.mailbox a).cache.second = []) :
    CacheRounds a sent first total d (j + 1) (w.setMailbox a ((w.mailbox a).fetched l)) := by
  obtain ⟨hjd, hfirst⟩ := h.lasted hne hs
  have hlen := h.contents
  rw [hc, List.length_cons] at hlen
  refine ⟨by simpa using Mailbox.open_fetched _ _, ?_, ?_, ?_, ?_, ?_, fun _ => hfirst⟩
  · rw [World.user_setMailbox, h.user]
    omega
  · simp only [World.mailbox_setMailbox_self, Mailbox.cache_fetched, hs, List.length_nil]
    omega
  · rw [show min (j + 1) d = min j d by omega]
    simp only [World.mailbox_setMailbox_self, Mailbox.contents_fetched]
    omega
  · rw [if_neg (by omega)]
    simp
  · intro k hk
    exact h.fetched k (by omega)

/-- One round of the first loop. -/
theorem CacheRounds.round (h : CacheRounds a sent first total d j w)
    (hne : (w.mailbox a).cache.empty = false) {m : α} {l : List α}
    (hc : (w.mailbox a).contents = m :: l) :
    ∃ w', consumeFromCache deferred (oracle a sent) a
        (w.setMailbox a ((w.mailbox a).fetched l)) = .ok w' ∧
      CacheRounds a sent first total d (j + 1) w' := by
  cases hs : (w.mailbox a).cache.second with
  | nil => exact ⟨_, by simp [consumeFromCache, hs], h.drop hne hc hs⟩
  | cons x xs => exact h.handle hc hs

omit [DecidableEq ι] in
/-- Where the first loop is left, the second takes over. -/
theorem CacheRounds.leave (h : CacheRounds a sent first total d j w)
    (hl : j = maxThroughput ∨ (w.mailbox a).cache.empty = true) :
    MainRounds a sent maxThroughput first total d j w := by
  have hse := h.secondPart
  rcases Nat.lt_or_ge j d with hlt | hge
  · have hne : (w.mailbox a).cache.second ≠ [] := by
      intro hnil
      rw [hnil, List.length_nil] at hse
      omega
    refine .short hlt (hl.resolve_right fun he => ?_) h.isOpen hne
    simp [Cache.empty, hne] at he
  · have hnil : (w.mailbox a).cache.second = [] := List.length_eq_zero_iff.mp (by omega)
    have hco := h.contents
    have hf := h.firstPart
    have hfe : ∀ k < d, k < total + sentBefore sent k := fun k hk => h.fetched k (by omega)
    rw [show min j d = d by omega] at hco
    by_cases hz : firstLeft sent first total d = 0
    · obtain rfl : j = d := by
        by_contra hne
        exact h.beyond (by omega) hz
      exact .handling le_rfl h.isOpen hnil hfe hz hco (by rw [h.user, Nat.min_self])
    · refine .dropped hge h.isOpen hnil hfe hz hco fun hne => hl.resolve_right fun he => ?_
      have hnf : (w.mailbox a).cache.first = [] := by simpa [Cache.empty, hnil] using he
      rw [hnf, List.length_nil] at hf
      split_ifs at hf with hjd
      · obtain rfl : j = d := by omega
        exact hz hf.symm
      · exact hne (List.length_eq_zero_iff.mp hf.symm)

/-- One round of the second loop. -/
theorem MainRounds.round (h : MainRounds a sent maxThroughput first total d j w)
    (hj : j < maxThroughput) {m : α} {l : List α} (hc : (w.mailbox a).contents = m :: l) :
    ∃ w', consume deferred (oracle a sent) a m (w.setMailbox a ((w.mailbox a).fetched l)) = .ok w' ∧
      MainRounds a sent maxThroughput first total d (j + 1) w' := by
  cases h with
  | short _ hm => omega
  | dropped _ _ _ _ _ _ hm =>
    have := hm (by rw [hc]; nofun)
    omega
  | handling hd ho hs hfe hz hco hu =>
    rw [hc, List.length_cons] at hco
    obtain ⟨w', hw, hu', ho', hca, hco'⟩ := consume_oracle a sent
      (w := w.setMailbox a ((w.mailbox a).fetched l)) hu (by simpa using Mailbox.open_fetched _ _) m
    simp only [World.mailbox_setMailbox_self, Mailbox.cache_fetched, Mailbox.contents_fetched,
      hs] at hca hco'
    refine ⟨w', hw, .handling (by omega) ho' (by rw [hca]) (fun k hk => ?_) hz ?_ hu'⟩
    · rcases Nat.lt_or_ge k j with hlt | hge
      · exact hfe k hlt
      · obtain rfl : k = j := by omega
        omega
    · rw [hco', sentBefore_succ]
      omega

omit [DecidableEq ι] in
/-- Where the second loop finds nothing, nothing is left exactly if nothing should be. -/
theorem MainRounds.done (h : MainRounds a sent maxThroughput first total d j w)
    (hj : j ≤ maxThroughput) (hc : (w.mailbox a).contents = []) :
    (w.mailbox a).cache.second = [] ↔ Fits sent maxThroughput first total d := by
  cases h with
  | short hd hm _ hne =>
    refine ⟨fun hs => absurd hs hne, fun hex => ?_⟩
    have := hex.1
    omega
  | dropped hd _ hs hfe hz hco =>
    rw [hc, List.length_nil] at hco
    exact iff_of_true hs ⟨by omega, hfe, by rw [if_neg hz]; omega⟩
  | handling hd _ hs hfe hz hco =>
    rw [hc, List.length_nil] at hco
    refine iff_of_true hs ⟨by omega, fun k hk => hfe k (by omega), ?_⟩
    rw [if_pos hz]
    exact ⟨j, hd, hj, by omega⟩

omit [DecidableEq ι] in
/-- Where the throughput is used up and there is something to read, something would be left. -/
theorem MainRounds.exhausted (h : MainRounds a sent maxThroughput first total d maxThroughput w)
    (hc : (w.mailbox a).contents ≠ []) : ¬ Fits sent maxThroughput first total d := by
  have hlen := List.length_pos_iff.mpr hc
  rintro ⟨hd', -, hex⟩
  cases h with
  | short hd => omega
  | dropped hd _ hs hfe hz hco =>
    rw [if_neg hz] at hex
    omega
  | handling hd _ hs hfe hz hco =>
    rw [if_pos hz] at hex
    obtain ⟨k, hdk, hk, hle⟩ := hex
    rcases Nat.lt_or_ge k maxThroughput with hlt | hge
    · have := hfe k hlt
      omega
    · obtain rfl : k = maxThroughput := by omega
      omega

variable (sent) in
/-- A run returns `awaiting`, and leaves nothing exactly under the condition. -/
theorem run_left (hmax : 0 < maxThroughput) (ho : (w.mailbox a).Open) (hu : w.user = 0) :
    ∃ w', run deferred (oracle a sent) maxThroughput a w = .ok (w', .awaiting) ∧
      (w'.left a = [] ↔ Fits sent maxThroughput (w.mailbox a).cache.first.length
        (w.mailbox a).contents.length (w.mailbox a).cache.second.length) := by
  generalize hf : (w.mailbox a).cache.first.length = first
  generalize ht : (w.mailbox a).contents.length = total
  generalize hd : (w.mailbox a).cache.second.length = d
  refine run_rule hmax
    (I := fun n w => n ≤ maxThroughput ∧ CacheRounds a sent first total d (maxThroughput - n) w)
    (J := fun n w => n ≤ maxThroughput ∧
      MainRounds a sent maxThroughput first total d (maxThroughput - n) w)
    (fun n w h => h.2.isOpen) (fun n w h => ?_) (fun n w m l h hne hc => ?_) (fun n w m l h hc => ?_)
    ⟨le_rfl, ?_⟩ (fun n w h hl => ⟨h.1, h.2.leave ?_⟩) (fun n w hn h hne hc => ?_)
    (fun n w hn h hc => ?_) (fun w h hc => ?_)
  · cases h.2 with
    | short _ _ ho => exact ho
    | dropped _ ho => exact ho
    | handling _ ho => exact ho
  · obtain ⟨w', hw, h'⟩ := h.2.round hne hc
    refine ⟨w', hw, by omega, ?_⟩
    rwa [show maxThroughput - n = maxThroughput - (n + 1) + 1 by omega]
  · obtain ⟨w', hw, h'⟩ := h.2.round (by omega) hc
    refine ⟨w', hw, by omega, ?_⟩
    rwa [show maxThroughput - n = maxThroughput - (n + 1) + 1 by omega]
  · subst hf ht hd
    rw [Nat.sub_self]
    exact .start (w := w.emit (.enter a)) ho hu
  · exact hl.imp (fun hn => by omega) id
  · -- the first loop finds nothing to fetch, with the second part not used up
    rw [World.left_leave, World.left_block]
    have hnf : (w.mailbox a).cache.first = [] := by
      simp only [Mailbox.contents, List.append_eq_nil_iff] at hc
      exact hc.1
    have hns : (w.mailbox a).cache.second ≠ [] := by
      intro hs
      simp [Cache.empty, hnf, hs] at hne
    have hlen := List.length_pos_iff.mpr hns
    rw [h.2.secondPart] at hlen
    refine ⟨fun hs => absurd hs hns, fun hex => ?_⟩
    have hco := h.2.contents
    rw [hc, List.length_nil, show min (maxThroughput - (n + 1)) d = maxThroughput - (n + 1) by omega] at hco
    have := hex.2.1 (maxThroughput - (n + 1)) (by omega)
    omega
  · rw [World.left_leave, World.left_block]
    exact h.2.done (by omega) hc
  · rw [World.left_leave]
    have hex := (show MainRounds a sent maxThroughput first total d maxThroughput w from h.2).exhausted hc
    refine iff_of_false ?_ hex
    simp [World.left, hc]

theorem honest_awaiting (l : List α) : Honest l .awaiting ↔ l = [] := by
  refine ⟨fun h => h.1 rfl, ?_⟩
  rintro rfl
  exact ⟨fun _ => rfl, fun h => absurd rfl h⟩

/-- **When a run tells the truth**: with an open mailbox and a throughput of at least one, `run`
returns `awaiting` only if nothing is left, and `resume` if something is, exactly when the
messages that are there and those the handlers send do not outlast the throughput. -/
theorem run_honest_iff (hmax : 0 < maxThroughput) (ho : (w.mailbox a).Open) (hu : w.user = 0) :
    (∃ w' r, run deferred (oracle a sent) maxThroughput a w = .ok (w', r) ∧ Honest (w'.left a) r) ↔
      Fits sent maxThroughput (w.mailbox a).cache.first.length
        (w.mailbox a).contents.length (w.mailbox a).cache.second.length := by
  obtain ⟨w', hr, hw⟩ := run_left sent hmax ho hu
  rw [← hw, ← honest_awaiting]
  constructor
  · rintro ⟨w'', r, hr', h⟩
    rw [hr] at hr'
    cases hr'
    exact h
  · intro h
    exact ⟨w', .awaiting, hr, h⟩

end Run

/-- A mailbox that holds the given messages. -/
def holding (l : List ℕ) : World Unit ℕ ℕ :=
  { actor := fun _ => { mailbox := { stack := .list l.reverse } }, user := 0 }

/-- Two messages, of which the first sends a third, and a throughput of three. -/
theorem run_honest_iff_three : ∃ w' r,
    run deferred (oracle () fun i => if i = 0 then [3] else []) 3 () (holding [1, 2]) = .ok (w', r) ∧
      Honest (w'.left ()) r :=
  (run_honest_iff (by decide) ⟨[2, 1], rfl⟩ rfl).mpr
    ⟨Nat.zero_le _, fun j hj => absurd hj (Nat.not_lt_zero j), 3, by decide, by decide, by decide⟩

/-- Two messages and a throughput of one: `awaiting`, with a message left. -/
theorem awaiting_with_message_left : ¬ ∀ (maxThroughput : ℕ) (sent : ℕ → List ℕ) (w : World Unit ℕ ℕ),
    0 < maxThroughput → (w.mailbox ()).Open → w.user = 0 →
    ∃ w' r, run deferred (oracle () sent) maxThroughput () w = .ok (w', r) ∧ Honest (w'.left ()) r := by
  intro hall
  obtain ⟨w', r, hr, h⟩ := hall 1 (fun _ => []) (holding [1, 2]) (by decide) ⟨[2, 1], rfl⟩ rfl
  obtain ⟨w₁, hr₁, hl⟩ : ∃ w₁, run deferred (oracle () fun _ => []) 1 () (holding [1, 2]) =
      .ok (w₁, .awaiting) ∧ w₁.left () = [2] := ⟨_, rfl, rfl⟩
  rw [hr₁] at hr
  cases hr
  rw [honest_awaiting, hl] at h
  cases h

end ActorsFramework.Actor
