import LlmGuard.Scanner.Decode
import LlmGuard.Scanner.Proofs
import LlmGuard.Spec.Sample

/-!
# The match loop finds what Go's loop finds

Behind an empty match, `scan_one_rule` goes on from the start of the match, and Go from where it began to search.
Go then finds the same empty match again until it is past it, and none of these counts.
-/

namespace LlmGuard

/-! ## Two loops -/

/-- `for pos <= end`: the accepted matches, or `none` where the rounds run out. `next` is the place of the next
search. -/
def matchLoop (next : Nat → Submatches → Nat) (search : Nat → Option Submatches) (size : Nat) :
    Nat → Nat → Option Nat → Option (List Submatches)
  | 0, _, _ => none
  | fuel + 1, pos, prevMatchEnd =>
    if size < pos then some []
    else
      match search pos with
      | none => some []
      | some g =>
        let rest := matchLoop next search size fuel (next pos g) (some g.whole.2)
        if g.whole.2 = g.whole.1 ∧ prevMatchEnd = some g.whole.1 then rest else rest.map (g :: ·)

/-- One rune on, or past the end. -/
def pastRune (text : Bytes) (i : Nat) : Nat :=
  let width := if i < text.length then (decodeUtf8 text i).2 else 0
  if 0 < width then i + width else text.length + 1

/-- `scan_one_rule` decodes at the start of an empty match. -/
def scanNext (text : Bytes) (_pos : Nat) (g : Submatches) : Nat :=
  if g.whole.2 = g.whole.1 then pastRune text g.whole.1 else g.whole.2

/-- Go decodes where the search began. -/
def goNext (text : Bytes) (pos : Nat) (g : Submatches) : Nat :=
  if g.whole.2 = g.whole.1 then pastRune text pos else g.whole.2

def scanMatches (re2 : Re2) (re : Regex) (text : Bytes) : Option (List Submatches) :=
  matchLoop (scanNext text) (re2.search re text) text.length (text.length + 2) 0 none

/-- Go's `allMatches`. -/
def allMatches (re2 : Re2) (re : Regex) (text : Bytes) : Option (List Submatches) :=
  matchLoop (goNext text) (re2.search re text) text.length (text.length + 2) 0 none

/-- `j` is reached from `i` by whole decode steps. -/
def RuneSteps (text : Bytes) : Nat → Nat → Prop :=
  Relation.ReflTransGen fun i j => i < text.length ∧ j = i + (decodeUtf8 text i).2

/-- A matcher that finds the leftmost match, wherever it begins to look. -/
structure Leftmost (re2 : Re2) (re : Regex) (text : Bytes) : Prop where
  whole : ∀ pos g, re2.search re text pos = some g →
    pos ≤ g.whole.1 ∧ g.whole.1 ≤ g.whole.2 ∧ g.whole.2 ≤ text.length
  groups : ∀ pos g span, re2.search re text pos = some g → some span ∈ g.groups →
    g.whole.1 ≤ span.1 ∧ span.2 ≤ g.whole.2
  same : ∀ pos g p, re2.search re text pos = some g → pos ≤ p → p ≤ g.whole.1 → re2.search re text p = some g
  none : ∀ pos p, re2.search re text pos = none → pos ≤ p → re2.search re text p = none
  runes : ∀ pos g, re2.search re text pos = some g → RuneSteps text pos g.whole.1

/-- What a match delivers. -/
def deliver (env : Env) (text : Bytes) (cr : CompiledRule) (re : Regex) (g : Submatches) : Option ScanMatch :=
  (sensitiveSpan g (env.re2.numberOfCapturingGroups re + 1) cr.rule).bind fun span =>
    if acceptSpan env text cr span then some ⟨span.1, span.2, some cr⟩ else none

/-! ## Every round goes on -/

theorem pastRune_lt (text : Bytes) (i : Nat) (hi : i ≤ text.length) : i < pastRune text i := by
  unfold pastRune
  dsimp only
  split
  · have := decodeUtf8_pos text i
    split <;> omega
  · rw [if_neg (Nat.lt_irrefl 0)]
    omega

theorem pastRune_inside {text : Bytes} {i : Nat} (hi : i < text.length) :
    pastRune text i = i + (decodeUtf8 text i).2 := by
  unfold pastRune
  dsimp only
  rw [if_pos hi, if_pos (decodeUtf8_pos text i)]

section Loop

variable {next : Nat → Submatches → Nat} {search : Nat → Option Submatches} {size : Nat}

theorem matchLoop_more {fuel pos : Nat} {prev : Option Nat} {ms : List Submatches} (extra : Nat)
    (h : matchLoop next search size fuel pos prev = some ms) :
    matchLoop next search size (fuel + extra) pos prev = some ms := by
  induction fuel generalizing pos prev ms with
  | zero => cases h
  | succ fuel ih =>
    rw [Nat.succ_add]
    unfold matchLoop at h ⊢
    split
    · rename_i hend
      rwa [if_pos hend] at h
    · rename_i hend
      rw [if_neg hend] at h
      cases hs : search pos with
      | none => rwa [hs] at h
      | some g =>
        simp only [hs] at h ⊢
        split
        · rename_i hskip
          rw [if_pos hskip] at h
          exact ih h
        · rename_i hskip
          rw [if_neg hskip] at h
          obtain ⟨rest, hrest, rfl⟩ := Option.map_eq_some_iff.mp h
          rw [ih hrest, Option.map_some]

theorem matchLoop_unique {fuel fuel' pos : Nat} {prev : Option Nat} {ms ms' : List Submatches}
    (h : matchLoop next search size fuel pos prev = some ms) (h' : matchLoop next search size fuel' pos prev = some ms') :
    ms = ms' := by
  have hmore := matchLoop_more fuel' h
  rw [Nat.add_comm, matchLoop_more fuel h'] at hmore
  exact (Option.some.inj hmore).symm

theorem matchLoop_ends (hnext : ∀ pos g, search pos = some g → pos < next pos g) (fuel pos : Nat) (prev : Option Nat)
    (hfuel : size + 2 ≤ fuel + pos) (hpos : 0 < fuel) : ∃ ms, matchLoop next search size fuel pos prev = some ms := by
  induction fuel generalizing pos prev with
  | zero => omega
  | succ fuel ih =>
    unfold matchLoop
    split
    · exact ⟨[], rfl⟩
    · split
      · exact ⟨[], rfl⟩
      · rename_i g hg
        have hlt := hnext pos g hg
        obtain ⟨ms, hms⟩ := ih (next pos g) (some g.whole.2) (by omega) (by omega)
        simp only [hms]
        split
        · exact ⟨ms, rfl⟩
        · exact ⟨g :: ms, rfl⟩

theorem matchLoop_apart (hwhole : ∀ pos g, search pos = some g → pos ≤ g.whole.1 ∧ g.whole.1 ≤ g.whole.2)
    (hnext : ∀ pos g, search pos = some g → g.whole.2 ≤ next pos g) {fuel pos : Nat} {prev : Option Nat}
    {ms : List Submatches} (h : matchLoop next search size fuel pos prev = some ms) :
    (∀ g ∈ ms, pos ≤ g.whole.1 ∧ ∃ p, search p = some g) ∧ ms.Pairwise fun g g' => g.whole.2 ≤ g'.whole.1 := by
  induction fuel generalizing pos prev ms with
  | zero => cases h
  | succ fuel ih =>
    unfold matchLoop at h
    split at h
    · cases h
      simp
    · split at h
      · cases h
        simp
      · rename_i g hg
        have hpos := hwhole pos g hg
        have hstop := hnext pos g hg
        have hrun : ∀ rest, matchLoop next search size fuel (next pos g) (some g.whole.2) = some rest →
            (∀ g' ∈ rest, g.whole.2 ≤ g'.whole.1 ∧ ∃ p, search p = some g') ∧
              rest.Pairwise fun g g' => g.whole.2 ≤ g'.whole.1 := fun rest hrest =>
          ⟨fun g' hg' => ⟨hstop.trans ((ih hrest).1 g' hg').1, ((ih hrest).1 g' hg').2⟩, (ih hrest).2⟩
        dsimp only at h
        split at h
        · obtain ⟨hin, hpair⟩ := hrun ms h
          exact ⟨fun g' hg' => ⟨by have := (hin g' hg').1; omega, (hin g' hg').2⟩, hpair⟩
        · obtain ⟨rest, hrest, rfl⟩ := Option.map_eq_some_iff.mp h
          obtain ⟨hin, hpair⟩ := hrun rest hrest
          refine ⟨fun g' hg' => ?_, List.pairwise_cons.mpr ⟨fun g' hg' => (hin g' hg').1, hpair⟩⟩
          rcases List.mem_cons.mp hg' with rfl | hg'
          · exact ⟨hpos.1, pos, hg⟩
          · exact ⟨by have := (hin g' hg').1; omega, (hin g' hg').2⟩

end Loop

/-! ## Go finds an empty match again until it is past it -/

theorem RuneSteps.le {text : Bytes} {i j : Nat} (h : RuneSteps text i j) : i ≤ j := by
  induction h with
  | refl => exact Nat.le_refl _
  | tail _ hstep ih => omega

section Simulation

variable {re2 : Re2} {re : Regex} {text : Bytes}

theorem scanNext_le (h : Leftmost re2 re text) {pos : Nat} {g : Submatches} (hg : re2.search re text pos = some g) :
    pos < scanNext text pos g ∧ g.whole.2 ≤ scanNext text pos g := by
  obtain ⟨hpos, hle, hend⟩ := h.whole pos g hg
  unfold scanNext
  split
  · have := pastRune_lt text g.whole.1 (by omega)
    omega
  · omega

theorem goNext_lt (h : Leftmost re2 re text) {pos : Nat} {g : Submatches} (hg : re2.search re text pos = some g) :
    pos < goNext text pos g := by
  obtain ⟨hpos, hle, hend⟩ := h.whole pos g hg
  unfold goNext
  split
  · exact pastRune_lt text pos (by omega)
  · omega

theorem go_again (h : Leftmost re2 re text) {q p : Nat} {g : Submatches} (hg : re2.search re text q = some g)
    (hempty : g.whole.2 = g.whole.1) (hq : q ≤ p) (hsteps : RuneSteps text p g.whole.1) {fuel : Nat}
    {ms : List Submatches} (hrest : matchLoop (goNext text) (re2.search re text) text.length fuel
      (pastRune text g.whole.1) (some g.whole.1) = some ms) :
    ∃ fuel', matchLoop (goNext text) (re2.search re text) text.length fuel' p (some g.whole.1) = some ms := by
  have hend := (h.whole q g hg).2.2
  -- One round from a place before the match: it is found, it does not count, and the search goes one rune on.
  have hround : ∀ {fuel' i : Nat}, q ≤ i → i ≤ g.whole.1 →
      matchLoop (goNext text) (re2.search re text) text.length fuel' (pastRune text i) (some g.whole.1) = some ms →
      matchLoop (goNext text) (re2.search re text) text.length (fuel' + 1) i (some g.whole.1) = some ms := by
    intro fuel' i hqi hi hloop
    unfold matchLoop
    rw [if_neg (by omega), h.same q g i hg hqi hi]
    simp only [hempty, goNext, if_true, and_self, hloop]
  induction hsteps using Relation.ReflTransGen.head_induction_on with
  | refl => exact ⟨fuel + 1, hround hq (Nat.le_refl _) hrest⟩
  | @head i j hstep hsteps ih =>
    obtain ⟨hi, rfl⟩ := hstep
    have hle := RuneSteps.le hsteps
    obtain ⟨fuel', hloop⟩ := ih (by omega)
    exact ⟨fuel' + 1, hround hq (by omega) (by rwa [pastRune_inside hi])⟩

/-- What the loop of `scan_one_rule` accepts, Go's loop accepts. -/
theorem go_simulates (h : Leftmost re2 re text) {fuel pos : Nat} {prev : Option Nat} {ms : List Submatches}
    (hscan : matchLoop (scanNext text) (re2.search re text) text.length fuel pos prev = some ms) :
    ∃ fuel', matchLoop (goNext text) (re2.search re text) text.length fuel' pos prev = some ms := by
  induction fuel generalizing pos prev ms with
  | zero => cases hscan
  | succ fuel ih =>
    unfold matchLoop at hscan
    split at hscan
    · rename_i hend
      exact ⟨1, by rw [matchLoop, if_pos hend, hscan]⟩
    · rename_i hend
      cases hg : re2.search re text pos with
      | none =>
        simp only [hg] at hscan
        exact ⟨1, by rw [matchLoop, if_neg hend, hg]; exact hscan⟩
      | some g =>
        simp only [hg] at hscan
        have hgo : ∀ rest, matchLoop (scanNext text) (re2.search re text) text.length fuel (scanNext text pos g)
            (some g.whole.2) = some rest → ∃ fuel', matchLoop (goNext text) (re2.search re text) text.length fuel'
              (goNext text pos g) (some g.whole.2) = some rest := by
          intro rest hrest
          obtain ⟨fuel', hloop⟩ := ih hrest
          by_cases hempty : g.whole.2 = g.whole.1
          · simp only [scanNext, goNext, hempty, if_true] at hloop ⊢
            rcases Relation.ReflTransGen.cases_head (h.runes pos g hg) with hhere | ⟨p, ⟨hpos, rfl⟩, hsteps⟩
            · rw [← hhere] at hloop ⊢
              exact ⟨fuel', hloop⟩
            · rw [pastRune_inside hpos]
              exact go_again h hg hempty (Nat.le_add_right _ _) hsteps hloop
          · simp only [scanNext, goNext, if_neg hempty] at hloop ⊢
            exact ⟨fuel', hloop⟩
        split at hscan
        · rename_i hskip
          obtain ⟨fuel', hloop⟩ := hgo ms hscan
          refine ⟨fuel' + 1, ?_⟩
          unfold matchLoop
          rw [if_neg hend, hg]
          simp only [if_pos hskip, hloop]
        · rename_i hskip
          obtain ⟨rest, hrest, rfl⟩ := Option.map_eq_some_iff.mp hscan
          obtain ⟨fuel', hloop⟩ := hgo rest hrest
          refine ⟨fuel' + 1, ?_⟩
          unfold matchLoop
          rw [if_neg hend, hg]
          simp only [if_neg hskip, hloop, Option.map_some]

/-- Both loops end, with the same matches. -/
theorem scanMatches_eq_allMatches (h : Leftmost re2 re text) :
    ∃ ms, scanMatches re2 re text = some ms ∧ allMatches re2 re text = some ms := by
  obtain ⟨ms, hms⟩ := matchLoop_ends (fun pos g hg => (scanNext_le h hg).1) (text.length + 2) 0 none
    (Nat.le_refl _) (Nat.zero_lt_succ _)
  obtain ⟨ms', hms'⟩ := matchLoop_ends (fun pos g hg => goNext_lt h hg) (text.length + 2) 0 none
    (Nat.le_refl _) (Nat.zero_lt_succ _)
  obtain ⟨fuel, hgo⟩ := go_simulates h hms
  rw [matchLoop_unique hms' hgo] at hms'
  exact ⟨ms, hms, hms'⟩

end Simulation

/-! ## What is delivered -/

section Deliver

variable {env : Env} {text : Bytes} {cr : CompiledRule} {re : Regex}

theorem scanLoop_eq {fuel pos : Nat} {prev : Option Nat} {ms : List Submatches}
    (h : matchLoop (scanNext text) (env.re2.search re text) text.length fuel pos prev = some ms) :
    scanLoop env text cr re fuel pos prev = ms.filterMap (deliver env text cr re) := by
  induction fuel generalizing pos prev ms with
  | zero => cases h
  | succ fuel ih =>
    unfold matchLoop at h
    unfold scanLoop
    split at h
    · rename_i hend
      rw [if_pos hend, ← Option.some.inj h]
      rfl
    · rename_i hend
      rw [if_neg hend]
      cases hg : env.re2.search re text pos with
      | none =>
        simp only [hg] at h ⊢
        rw [← Option.some.inj h]
        rfl
      | some g =>
        simp only [hg] at h ⊢
        change (if (!(!(g.whole.2 == g.whole.1 && prev == some g.whole.1))) = true then
            scanLoop env text cr re fuel (scanNext text pos g) (some g.whole.2) else _) = _
        split at h
        · rename_i hskip
          rw [if_pos (by simpa using hskip), ih h]
        · rename_i hskip
          obtain ⟨rest, hrest, rfl⟩ := Option.map_eq_some_iff.mp h
          rw [if_neg (by simpa using hskip)]
          have hloop := ih hrest
          simp only [scanNext, pastRune] at hloop
          simp only [hloop, List.filterMap_cons, deliver]
          cases sensitiveSpan g (env.re2.numberOfCapturingGroups re + 1) cr.rule with
          | none => rfl
          | some span =>
            simp only [Option.bind_some]
            split <;> rfl

theorem deliver_inside (h : Leftmost env.re2 re text) {pos : Nat} {g : Submatches}
    (hg : env.re2.search re text pos = some g) {m : ScanMatch} (hm : deliver env text cr re g = some m) :
    g.whole.1 ≤ m.start ∧ m.start < m.stop ∧ m.stop ≤ g.whole.2 := by
  obtain ⟨span, hspan, hm⟩ := Option.bind_eq_some_iff.mp hm
  split at hm
  · obtain rfl := Option.some.inj hm
    obtain ⟨hlt, i, hget⟩ := sensitiveSpan_spec hspan
    unfold Submatches.get at hget
    split at hget
    · obtain rfl := Option.some.inj hget
      exact ⟨Nat.le_refl _, hlt, Nat.le_refl _⟩
    · obtain ⟨hlow, hhigh⟩ := h.groups pos g span hg (List.mem_of_getElem? (Option.join_eq_some_iff.mp hget))
      exact ⟨hlow, hlt, hhigh⟩
  · cases hm

/-- `scan_one_rule` ends, and delivers what Go's loop delivers: the non-empty matches, from left to right. -/
theorem scanOneRule_allMatches (env : Env) (text : Bytes) (cr : CompiledRule) (hre : cr.re = some re)
    (h : Leftmost env.re2 re text) :
    ∃ ms out, scanMatches env.re2 re text = some ms ∧ allMatches env.re2 re text = some ms ∧
      scanOneRule env text (some cr) = .ok out ∧
      out = (ms.filter fun g => g.whole.1 < g.whole.2).filterMap (deliver env text cr re) ∧
      (∀ m ∈ out, m.start < m.stop ∧ m.stop ≤ text.length) ∧
      out.Pairwise fun m n => m.start < n.start ∧ m.stop ≤ n.start := by
  obtain ⟨ms, hscan, hgo⟩ := scanMatches_eq_allMatches h
  obtain ⟨hfound, hapart⟩ := matchLoop_apart (fun pos g hg => ⟨(h.whole pos g hg).1, (h.whole pos g hg).2.1⟩)
    (fun pos g hg => (scanNext_le h hg).2) hscan
  have hsearch : ∀ g ∈ ms, ∃ p, env.re2.search re text p = some g := fun g hg => (hfound g hg).2
  -- An empty match has nothing to deliver.
  have hnonempty : ms.filterMap (deliver env text cr re) =
      (ms.filter fun g => g.whole.1 < g.whole.2).filterMap (deliver env text cr re) := by
    rw [List.filterMap_filter]
    refine List.filterMap_congr fun g hg => ?_
    split
    · rfl
    · rename_i hempty
      obtain ⟨p, hp⟩ := hsearch g hg
      rw [Option.eq_none_iff_forall_ne_some]
      intro m hm
      have := deliver_inside h hp hm
      simp only [decide_eq_true_eq] at hempty
      omega
  refine ⟨ms, ms.filterMap (deliver env text cr re), hscan, hgo, ?_, hnonempty, ?_, ?_⟩
  · simp only [scanOneRule, hre]
    split
    · rename_i hempty
      obtain rfl := List.isEmpty_iff.mp hempty
      have hnone : ms.filterMap (deliver env [] cr re) = [] := by
        rw [List.filterMap_eq_nil_iff]
        intro g hg
        obtain ⟨p, hp⟩ := hsearch g hg
        rw [Option.eq_none_iff_forall_ne_some]
        intro m hm
        have hin := deliver_inside h hp hm
        have hend := (h.whole p g hp).2.2
        simp only [List.length_nil] at hend
        omega
      rw [hnone]
    · exact congrArg _ (scanLoop_eq hscan)
  · intro m hm
    obtain ⟨g, hg, hm⟩ := List.mem_filterMap.mp hm
    obtain ⟨p, hp⟩ := hsearch g hg
    obtain ⟨-, hlt, hle⟩ := deliver_inside h hp hm
    exact ⟨hlt, hle.trans (h.whole p g hp).2.2⟩
  · have hpair := hapart.imp_of_mem (S := fun g g' => g.whole.2 ≤ g'.whole.1 ∧
      (∃ p, env.re2.search re text p = some g) ∧ ∃ p, env.re2.search re text p = some g')
      fun hg hg' hle => ⟨hle, hsearch _ hg, hsearch _ hg'⟩
    refine hpair.filterMap _ fun g g' hboth m hm n hn => ?_
    obtain ⟨hle, ⟨p, hp⟩, p', hp'⟩ := hboth
    obtain ⟨-, hlt, hstop⟩ := deliver_inside h hp hm
    obtain ⟨hstart, -⟩ := deliver_inside h hp' hn
    omega

end Deliver

/-! ## A matcher with empty matches -/

/-- `\n|$` -/
def lineEndSearch (text : Bytes) (pos : Nat) : Option Submatches :=
  if text.length < pos then none
  else
    let i := pos + (text.drop pos).findIdx (· = ch '\n')
    if i < text.length then some ⟨(i, i + 1), []⟩ else some ⟨(i, i), []⟩

def lineEndRe2 : Re2 := { sampleRe2 (fun _ _ => none) with search := fun _ => lineEndSearch }

theorem lineEndSearch_sample (pos : Nat) : lineEndSearch (ascii "a\nb") pos =
    if pos ≤ 1 then some ⟨(1, 2), []⟩ else if pos ≤ 3 then some ⟨(3, 3), []⟩ else none := by
  match pos with
  | 0 | 1 | 2 | 3 => decide
  | n + 4 => simp [lineEndSearch, ascii]

theorem runeSteps_sample {i j : Nat} (hij : i ≤ j) (hj : j ≤ 3) : RuneSteps (ascii "a\nb") i j := by
  have hwidth : ∀ k < 3, (decodeUtf8 (ascii "a\nb") k).2 = 1 := by decide
  induction j with
  | zero =>
    obtain rfl := Nat.le_zero.mp hij
    exact .refl
  | succ j ih =>
    rcases Nat.lt_or_eq_of_le hij with hlt | rfl
    · exact (ih (by omega) (by omega)).tail ⟨hj, by rw [hwidth j (by omega)]⟩
    · exact .refl

theorem lineEnd_leftmost : Leftmost lineEndRe2 [] (ascii "a\nb") where
  whole pos g h := by
    have h : lineEndSearch (ascii "a\nb") pos = some g := h
    rw [lineEndSearch_sample] at h
    split at h <;> [skip; split at h] <;> cases h <;> simp [ascii] <;> omega
  groups pos g span h hspan := by
    have h : lineEndSearch (ascii "a\nb") pos = some g := h
    rw [lineEndSearch_sample] at h
    split at h <;> [skip; split at h] <;> cases h <;> cases hspan
  same pos g p h hle hlow := by
    have h : lineEndSearch (ascii "a\nb") pos = some g := h
    change lineEndSearch (ascii "a\nb") p = some g
    rw [lineEndSearch_sample] at h ⊢
    split at h
    · cases h
      rw [if_pos hlow]
    · split at h
      · cases h
        rw [if_neg (by omega), if_pos hlow]
      · cases h
  none pos p h hle := by
    have h : lineEndSearch (ascii "a\nb") pos = none := h
    change lineEndSearch (ascii "a\nb") p = none
    rw [lineEndSearch_sample] at h ⊢
    split at h
    · cases h
    · split at h
      · cases h
      · rw [if_neg (by omega), if_neg (by omega)]
  runes pos g h := by
    have h : lineEndSearch (ascii "a\nb") pos = some g := h
    rw [lineEndSearch_sample] at h
    split at h
    · cases h
      exact runeSteps_sample ‹_› (by decide)
    · split at h
      · cases h
        exact runeSteps_sample ‹_› (by decide)
      · cases h

def lineEndEnv : Env := { sampleEnv (fun _ _ => none) with re2 := lineEndRe2 }

def lineEndRule : CompiledRule := { sampleCompiled "line" "" "LINE" with re := some [] }

/-- Go finds the empty match at the end twice, `scan_one_rule` once. -/
theorem scanOneRule_allMatches_lineEnd :
    ∃ ms out, scanMatches lineEndRe2 [] (ascii "a\nb") = some ms ∧ allMatches lineEndRe2 [] (ascii "a\nb") = some ms ∧
      scanOneRule lineEndEnv (ascii "a\nb") (some lineEndRule) = .ok out ∧
      out = (ms.filter fun g => g.whole.1 < g.whole.2).filterMap (deliver lineEndEnv (ascii "a\nb") lineEndRule []) ∧
      (∀ m ∈ out, m.start < m.stop ∧ m.stop ≤ (ascii "a\nb").length) ∧
      out.Pairwise fun m n => m.start < n.start ∧ m.stop ≤ n.start :=
  scanOneRule_allMatches lineEndEnv (ascii "a\nb") lineEndRule rfl lineEnd_leftmost

example : allMatches lineEndRe2 [] (ascii "a\nb") = some [⟨(1, 2), []⟩, ⟨(3, 3), []⟩] := by decide

end LlmGuard
