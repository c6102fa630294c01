import LlmGuard.Code.Cache
import LlmGuard.Lib.Moments

/-!
# Where cached values come from

Whatever calls run at once, whatever Redis loses and whenever it is down: what a call returns was in the store under its
key. If calls are not stuck between their load and their store, it was there not long ago.
-/

namespace LlmGuard.Cache

open CacheState Moments

variable {T : Type} {codec : Codec T} {s s' : CacheState T}

/-- No call waits longer than `delay` between its load and its end, and nothing lives longer than `ttl`. -/
def Paced (delay ttl : Nat) (s : CacheState T) : Event T → Prop
  | .call _ _ t => 0 < t ∧ t ≤ ttl
  | .set i _ => ∀ key t value loadedAt, s.calls i = some ⟨key, t, .set value loadedAt⟩ → s.now ≤ loadedAt + delay
  | _ => True

/-- Every event of the run keeps the pace. -/
def KeepsPace (codec : Codec T) (delay ttl : Nat) (start : CacheState T) (events : List (Event T)) : Prop :=
  ∀ before e s, before ++ [e] <+: events → Leads (CacheState.step codec) start before s → Paced delay ttl s e

/-- An observation has the value that somebody loaded for the key before. -/
def Sourced (loaded : List (Observed T)) (bound : Nat → Prop) (key : Bytes) (value : T) (time : Nat) : Prop :=
  ∃ l ∈ loaded, l.key = key ∧ l.value = value ∧ l.time ≤ time ∧ bound l.time

theorem Sourced.mono {loaded loaded' : List (Observed T)} {bound bound' : Nat → Prop} {key : Bytes} {value : T}
    {time time' : Nat} (h : Sourced loaded bound key value time) (hloaded : loaded ⊆ loaded') (htime : time ≤ time')
    (hbound : ∀ t, bound t → bound' t) : Sourced loaded' bound' key value time' := by
  obtain ⟨l, hl, hkey, hvalue, hle, hb⟩ := h
  exact ⟨l, hloaded hl, hkey, hvalue, hle.trans htime, hbound _ hb⟩

/-- What every step keeps. The time bounds hold of runs that keep a pace. -/
structure Inv (codec : Codec T) (paced : Prop) (delay ttl : Nat) (s : CacheState T) : Prop where
  entries : ∀ key e value, s.redis key = some e → codec.parse e.blob = some value →
    Sourced s.loaded (fun t => paced → ∃ deadline, e.deadline = some deadline ∧ deadline ≤ t + delay + ttl) key value s.now
  pending : ∀ i c value t, s.calls i = some c → c.phase = .set value t → Sourced s.loaded (· = t) c.key value s.now
  ttls : paced → ∀ i c, s.calls i = some c → 0 < c.ttl ∧ c.ttl ≤ ttl
  returned : ∀ r ∈ s.returned, Sourced s.loaded (fun t => paced → r.time < t + delay + ttl) r.key r.value r.time

variable {paced : Prop} {delay ttl : Nat}

theorem inv_init (store : Bytes → T) : Inv codec paced delay ttl (init store) where
  entries _ _ _ h := by cases h
  pending _ _ _ _ h := by cases h
  ttls _ _ _ h := by cases h
  returned _ h := by cases h

/-! ## The parts of a step -/

theorem Inv.put (h : Inv codec paced delay ttl s) (i : Nat) {c : Call T} (httl : paced → 0 < c.ttl ∧ c.ttl ≤ ttl)
    (hphase : ∀ value t, c.phase = .set value t → Sourced s.loaded (· = t) c.key value s.now) :
    Inv codec paced delay ttl { s with calls := Function.update s.calls i (some c) } where
  entries := h.entries
  pending j c' value t hj hset := by
    simp only at hj
    rcases eq_or_ne j i with rfl | hne
    · rw [Function.update_self] at hj
      obtain rfl := Option.some.inj hj
      exact hphase value t hset
    · rw [Function.update_of_ne hne] at hj
      exact h.pending j c' value t hj hset
  ttls hpaced j c' hj := by
    simp only at hj
    rcases eq_or_ne j i with rfl | hne
    · rw [Function.update_self] at hj
      obtain rfl := Option.some.inj hj
      exact httl hpaced
    · rw [Function.update_of_ne hne] at hj
      exact h.ttls hpaced j c' hj
  returned := h.returned

theorem Inv.goto (h : Inv codec paced delay ttl s) {i : Nat} {c : Call T} (hc : s.calls i = some c) {phase : Phase T}
    (hphase : ∀ value t, phase = .set value t → Sourced s.loaded (· = t) c.key value s.now) :
    Inv codec paced delay ttl (s.goto i c phase) :=
  h.put i (fun hpaced => h.ttls hpaced i c hc) hphase

theorem calls_finish {i j : Nat} {c : Call T} (h : (s.finish i).calls j = some c) : s.calls j = some c := by
  unfold finish at h
  simp only at h
  rcases eq_or_ne j i with rfl | hne
  · rw [Function.update_self] at h
    cases h
  · rwa [Function.update_of_ne hne] at h

theorem Inv.finish (h : Inv codec paced delay ttl s) (i : Nat) : Inv codec paced delay ttl (s.finish i) where
  entries := h.entries
  pending j c value t hj := h.pending j c value t (calls_finish hj)
  ttls hpaced j c hj := h.ttls hpaced j c (calls_finish hj)
  returned := h.returned

theorem Inv.answer (h : Inv codec paced delay ttl s) (i : Nat) {c : Call T} {value : T}
    (hvalue : Sourced s.loaded (fun t => paced → s.now < t + delay + ttl) c.key value s.now) :
    Inv codec paced delay ttl (s.answer i c value) where
  entries := h.entries
  pending j c value t hj := h.pending j c value t (calls_finish hj)
  ttls hpaced j c hj := h.ttls hpaced j c (calls_finish hj)
  returned := List.forall_mem_cons.mpr ⟨hvalue, h.returned⟩

theorem Inv.redis (h : Inv codec paced delay ttl s) (key : Bytes) (entry : Option Entry)
    (hentry : ∀ e value, entry = some e → codec.parse e.blob = some value → Sourced s.loaded
      (fun t => paced → ∃ deadline, e.deadline = some deadline ∧ deadline ≤ t + delay + ttl) key value s.now) :
    Inv codec paced delay ttl { s with redis := Function.update s.redis key entry } where
  entries key' e value he := by
    simp only at he
    rcases eq_or_ne key' key with rfl | hne
    · rw [Function.update_self] at he
      exact hentry e value he
    · rw [Function.update_of_ne hne] at he
      exact h.entries key' e value he
  pending := h.pending
  ttls := h.ttls
  returned := h.returned

theorem Inv.tick (h : Inv codec paced delay ttl s) : Inv codec paced delay ttl { s with now := s.now + 1 } where
  entries key e value he hparse :=
    (h.entries key e value he hparse).mono (List.Subset.refl _) (Nat.le_succ _) fun _ hb => hb
  pending i c value t hc hset :=
    (h.pending i c value t hc hset).mono (List.Subset.refl _) (Nat.le_succ _) fun _ hb => hb
  ttls := h.ttls
  returned := h.returned

theorem Inv.get (h : Inv codec paced delay ttl s) {i : Nat} {c : Call T} (hc : s.calls i = some c) (up : Bool) :
    Inv codec paced delay ttl (s.get codec i c up) := by
  unfold CacheState.get
  split
  · rename_i value hvalue
    obtain ⟨blob, hblob, hparse⟩ := Option.bind_eq_some_iff.mp hvalue
    unfold CacheManager.get at hblob
    split at hblob
    · cases hblob
    · split at hblob
      · cases hblob
      · rename_i e he
        split at hblob
        · rename_i hlive
          obtain rfl := Option.some.inj hblob
          refine h.answer i ((h.entries c.key e value he hparse).mono (List.Subset.refl _) (Nat.le_refl _) ?_)
          intro t ht hpaced
          obtain ⟨deadline, hdeadline, hle⟩ := ht hpaced
          unfold Entry.isLive at hlive
          rw [hdeadline] at hlive
          have hlt : s.now < deadline := by simpa using hlive
          omega
        · cases hblob
  · exact h.goto hc fun value t hset => by cases hset

theorem Inv.load (h : Inv codec paced delay ttl s) {i : Nat} {c : Call T} (hc : s.calls i = some c) :
    Inv codec paced delay ttl (s.load i c) := by
  let l : Observed T := ⟨c.key, s.store c.key, s.now⟩
  have hmore : s.loaded ⊆ l :: s.loaded := List.subset_cons_self _ _
  have hloaded : Inv codec paced delay ttl { s with loaded := l :: s.loaded } := {
    entries := fun key e value he hparse => (h.entries key e value he hparse).mono hmore (Nat.le_refl _) fun _ hb => hb
    pending := fun j c value t hj hset => (h.pending j c value t hj hset).mono hmore (Nat.le_refl _) fun _ hb => hb
    ttls := h.ttls
    returned := fun r hr => (h.returned r hr).mono hmore (Nat.le_refl _) fun _ hb => hb }
  refine hloaded.goto (s := { s with loaded := l :: s.loaded }) hc fun value t hset => ?_
  obtain ⟨rfl, rfl⟩ := Phase.set.inj hset
  exact ⟨l, List.mem_cons_self, rfl, rfl, Nat.le_refl _, rfl⟩

theorem Inv.set (hcodec : ∀ value blob, codec.dump value = some blob → codec.parse blob = some value)
    (h : Inv codec paced delay ttl s) {i : Nat} {c : Call T} (hc : s.calls i = some c) {value : T} {loadedAt : Nat}
    (hset : c.phase = .set value loadedAt) (hpace : paced → s.now ≤ loadedAt + delay) (up : Bool) :
    Inv codec paced delay ttl (s.set codec i c value up) := by
  have hsource := h.pending i c value loadedAt hc hset
  have hanswer : Sourced s.loaded (fun t => paced → s.now < t + delay + ttl) c.key value s.now := by
    apply hsource.mono (List.Subset.refl _) (Nat.le_refl _)
    rintro t rfl hpaced
    have := hpace hpaced
    have := h.ttls hpaced i c hc
    omega
  unfold CacheState.set
  split
  · rename_i blob hblob
    unfold CacheManager.set
    split
    · exact h.answer i hanswer
    · refine Inv.answer (h.redis c.key _ ?_) i hanswer
      intro e value' he hparse
      obtain rfl := Option.some.inj he
      rw [hcodec value blob hblob] at hparse
      obtain rfl := Option.some.inj hparse
      refine hsource.mono (List.Subset.refl _) (Nat.le_refl _) ?_
      rintro t rfl hpaced
      obtain ⟨hpos, hle⟩ := h.ttls hpaced i c hc
      have := hpace hpaced
      refine ⟨s.now + c.ttl.toNat, if_pos hpos, ?_⟩
      omega
  · exact h.answer i hanswer

/-! ## Runs -/

/-- What a step can do. -/
inductive Transition (codec : Codec T) (s : CacheState T) : Event T → CacheState T → Prop
  | tick : Transition codec s .tick { s with now := s.now + 1 }
  | write (key : Bytes) (value : T) :
      Transition codec s (.write key value) { s with store := Function.update s.store key value }
  | evict (key : Bytes) : Transition codec s (.evict key) { s with redis := Function.update s.redis key none }
  | foreign {key : Bytes} {entry : Entry} (h : codec.parse entry.blob = none) :
      Transition codec s (.foreign key entry) { s with redis := Function.update s.redis key (some entry) }
  | call {i : Nat} {key : Bytes} {t : Int} (h : s.calls i = none) :
      Transition codec s (.call i key t) { s with calls := Function.update s.calls i (some ⟨key, t, .get⟩) }
  | get {i : Nat} {c : Call T} {up : Bool} (h : s.calls i = some c) (hphase : c.phase = .get) :
      Transition codec s (.get i up) (s.get codec i c up)
  | load {i : Nat} {c : Call T} (h : s.calls i = some c) (hphase : c.phase = .load) :
      Transition codec s (.load i false) (s.load i c)
  | throws {i : Nat} {c : Call T} (h : s.calls i = some c) : Transition codec s (.load i true) (s.finish i)
  | set {i : Nat} {c : Call T} {value : T} {loadedAt : Nat} {up : Bool} (h : s.calls i = some c)
      (hphase : c.phase = .set value loadedAt) : Transition codec s (.set i up) (s.set codec i c value up)

theorem transition_of_step {e : Event T} (hstep : s.step codec e = some s') : Transition codec s e s' := by
  cases e <;> unfold CacheState.step at hstep <;> simp only at hstep
  case tick => exact Option.some.inj hstep ▸ .tick
  case write key value => exact Option.some.inj hstep ▸ .write key value
  case evict key => exact Option.some.inj hstep ▸ .evict key
  case foreign key entry =>
    split at hstep
    · cases hstep
    · exact Option.some.inj hstep ▸ .foreign ‹_›
  case call i key t =>
    split at hstep
    · cases hstep
    · exact Option.some.inj hstep ▸ .call ‹_›
  case get i up =>
    split at hstep
    · exact Option.some.inj hstep ▸ .get ‹_› rfl
    · cases hstep
  case load i throws =>
    split at hstep
    · rename_i key t hc
      obtain rfl := Option.some.inj hstep
      cases throws with
      | true => exact .throws hc
      | false => exact .load hc rfl
    · cases hstep
  case set i up =>
    split at hstep
    · exact Option.some.inj hstep ▸ .set ‹_› rfl
    · cases hstep

theorem Inv.step (hcodec : ∀ value blob, codec.dump value = some blob → codec.parse blob = some value)
    (h : Inv codec paced delay ttl s) {e : Event T} (hpace : paced → Paced delay ttl s e)
    (hstep : Transition codec s e s') : Inv codec paced delay ttl s' := by
  cases hstep with
  | tick => exact h.tick
  | write key value => exact { entries := h.entries, pending := h.pending, ttls := h.ttls, returned := h.returned }
  | evict key => exact h.redis key none fun e value he => by cases he
  | foreign hforeign =>
    refine h.redis _ _ fun e value he hparse => ?_
    obtain rfl := Option.some.inj he
    rw [hforeign] at hparse
    cases hparse
  | call hfree => exact h.put _ (c := ⟨_, _, .get⟩) hpace fun value t hset => by cases hset
  | get hc => exact h.get hc _
  | load hc => exact h.load hc
  | throws hc => exact h.finish _
  | @set i c value loadedAt up hc hphase =>
    refine h.set hcodec hc hphase (fun hpaced => ?_) up
    obtain ⟨key, t, phase⟩ := c
    obtain rfl : phase = .set value loadedAt := hphase
    exact hpace hpaced key t value loadedAt hc

theorem loaded_step {e : Event T} (hstep : Transition codec s e s') {l : Observed T} (hl : l ∈ s'.loaded) :
    l ∈ s.loaded ∨ s.now = l.time ∧ s.store l.key = l.value := by
  cases hstep with
  | tick | write | evict | foreign | call | throws => exact .inl hl
  | get =>
    unfold CacheState.get at hl
    split at hl <;> exact .inl hl
  | load =>
    rcases List.mem_cons.mp hl with rfl | hl
    · exact .inr ⟨rfl, rfl⟩
    · exact .inl hl
  | set =>
    unfold CacheState.set at hl
    split at hl <;> exact .inl hl

theorem inv_of_leads (hcodec : ∀ value blob, codec.dump value = some blob → codec.parse blob = some value)
    (h : Inv codec paced delay ttl s) {events : List (Event T)} (hrun : Leads (CacheState.step codec) s events s')
    (hpace : paced → KeepsPace codec delay ttl s events) : Inv codec paced delay ttl s' := by
  revert hpace
  refine hrun.rec_on (fun _ => h) fun events b e c hbefore hstep ih hpace => ?_
  refine (ih fun hpaced before e' s hfront => ?_).step hcodec (fun hpaced => ?_) (transition_of_step hstep)
  · exact hpace hpaced before e' s (hfront.trans (List.prefix_append _ _))
  · exact hpace hpaced events e b List.prefix_rfl hbefore

/-- Every load has a moment of the run at which its value was in the store. -/
theorem loaded_from_store {store : Bytes → T} {events : List (Event T)}
    (hrun : Leads (CacheState.step codec) (init store) events s) : ∀ l ∈ s.loaded,
    Sometime (CacheState.step codec) (init store) events fun mid => mid.now = l.time ∧ mid.store l.key = l.value := by
  refine hrun.rec_on (List.forall_mem_nil _) fun events b e c hbefore hstep ih l hl => ?_
  rcases loaded_step (transition_of_step hstep) hl with hl | hnow
  · exact (ih l hl).more (List.prefix_append _ _)
  · exact sometime_now hbefore (List.prefix_append _ _) hnow

/-- Every value that a call has returned was in the store under its key, at a moment of this run that was not later. If
the run keeps the pace, that was less than the delay and the time to live ago. -/
theorem cached_fresh (codec : Codec T) (hcodec : ∀ value blob, codec.dump value = some blob → codec.parse blob = some value)
    (delay ttl : Nat) (store : Bytes → T) (events : List (Event T)) (s : CacheState T)
    (hrun : Leads (CacheState.step codec) (init store) events s) (r : Observed T) (hr : r ∈ s.returned) :
    Sometime (CacheState.step codec) (init store) events fun mid => mid.store r.key = r.value ∧ mid.now ≤ r.time ∧
      (KeepsPace codec delay ttl (init store) events → r.time < mid.now + delay + ttl) := by
  obtain ⟨l, hl, hkey, hvalue, htime, hbound⟩ := (inv_of_leads hcodec (inv_init store) hrun id).returned r hr
  refine (loaded_from_store hrun l hl).mono fun mid ⟨hnow, hstore⟩ => ?_
  rw [← hnow] at htime hbound
  rw [hkey, hvalue] at hstore
  exact ⟨hstore, htime, hbound⟩

/-! ## A call behind another one -/

def flagCodec : Codec Bool where
  dump flag := some (if flag then ascii "true" else ascii "false")
  parse blob := if blob = ascii "true" then some true else if blob = ascii "false" then some false else none

theorem flagCodec_round_trip (flag : Bool) (blob : Bytes) (h : flagCodec.dump flag = some blob) :
    flagCodec.parse blob = some flag := by
  obtain rfl := Option.some.inj h
  cases flag <;> decide

/-- The second call returns what the first one has stored, when the store says something else already. -/
def flagEvents : List (Event Bool) :=
  [.call 0 (ascii "k") 60, .get 0 true, .load 0 false, .set 0 true, .write (ascii "k") false, .tick,
    .call 1 (ascii "k") 60, .get 1 true]

theorem keepsPace_nil {delay ttl : Nat} {start : CacheState T} : KeepsPace codec delay ttl start [] :=
  fun before e _ hfront => absurd (List.prefix_nil.mp hfront) (List.concat_ne_nil e before)

theorem keepsPace_cons {delay ttl : Nat} {start next : CacheState T} {event : Event T} {events : List (Event T)}
    (hpaced : Paced delay ttl start event) (hstep : start.step codec event = some next)
    (hrest : KeepsPace codec delay ttl next events) : KeepsPace codec delay ttl start (event :: events) := by
  intro before e s hfront hrun
  cases before with
  | nil =>
    obtain ⟨rfl, -⟩ := List.cons_prefix_cons.mp hfront
    obtain rfl := leads_nil.mp hrun
    exact hpaced
  | cons first before =>
    obtain ⟨rfl, hmore⟩ := List.cons_prefix_cons.mp hfront
    obtain ⟨mid, hmid, hrun⟩ := leads_cons.mp hrun
    obtain rfl := Option.some.inj (hstep.symm.trans hmid)
    exact hrest before e s hmore hrun

theorem flagEvents_pace : KeepsPace flagCodec 0 60 (init fun _ => true) flagEvents := by
  refine keepsPace_cons ⟨by decide, by decide⟩ rfl ?_
  refine keepsPace_cons trivial rfl ?_
  refine keepsPace_cons trivial rfl ?_
  refine keepsPace_cons (fun key t value loadedAt h => ?_) rfl ?_
  · cases h
    decide
  · refine keepsPace_cons trivial rfl (keepsPace_cons trivial rfl (keepsPace_cons ⟨by decide, by decide⟩ rfl ?_))
    exact keepsPace_cons trivial rfl keepsPace_nil

theorem cached_fresh_sample : ∃ s, Leads (CacheState.step flagCodec) (init fun _ => true) flagEvents s ∧
    s.store (ascii "k") = false ∧
    Sometime (CacheState.step flagCodec) (init fun _ => true) flagEvents fun mid =>
      mid.store (ascii "k") = true ∧ mid.now ≤ 1 ∧ 1 < mid.now + 0 + 60 := by
  refine ⟨_, rfl, rfl, ?_⟩
  refine (cached_fresh flagCodec flagCodec_round_trip 0 60 (fun _ => true) flagEvents _ rfl ⟨ascii "k", true, 1⟩
    (by exact List.mem_cons_self)).mono fun mid ⟨hstore, hnow, hbound⟩ => ?_
  exact ⟨hstore, hnow, hbound flagEvents_pace⟩

end LlmGuard.Cache
