import LlmGuard.Scanner.Proofs
import LlmGuard.Spec.Sample

/-!
# One match for one chain

`resolve_conflicts` covers the bytes that the candidates cover. Each of its matches is a maximal chain of overlapping
candidates, and has the rule of the candidate that is preferred among them.
-/

namespace LlmGuard

open Runs

/-- The byte at `i` lies in the match. -/
def ScanMatch.Covers (m : ScanMatch) (i : Nat) : Prop := m.start ≤ i ∧ i < m.stop

/-- Longest first, then lowest start, then lowest rule id. -/
def Outranks (p m : ScanMatch) : Prop :=
  m.length < p.length ∨
    m.length = p.length ∧ (p.start < m.start ∨ p.start = m.start ∧ p.ruleId ≤ m.ruleId)

theorem outranks_iff (p m : ScanMatch) : Outranks p m ↔ preferAsPrimary m p = false := by
  rw [preferAsPrimary_eq_false]
  unfold Outranks
  simp only [eq_comm (a := p.start)]

/-! ## The match of a chain -/

section Chains

variable {cs : List ScanMatch} {rs : List (List ScanMatch)} {r : List ScanMatch} {m : ScanMatch}

theorem unionOf_run (h : Chains cs rs) (hr : r ∈ rs) :
    (∃ a ∈ r, (unionOf r).start = a.start) ∧ (∃ b ∈ r, (unionOf r).stop = b.stop) ∧
      (∀ m ∈ r, (unionOf r).start ≤ m.start ∧ m.stop ≤ (unionOf r).stop) ∧
      ∃ first rest, r = first :: rest ∧ (unionOf r).rule = (primaryOf first rest).rule :=
  unionOf_spec (h.nonempty r hr) ((h.sorted r hr).imp start_le_of_not_less)

theorem unions_apart (h : Chains cs rs) : rs.Pairwise fun r s => (unionOf r).stop ≤ (unionOf s).start := by
  apply h.apart.imp_of_mem
  intro r s hr hs hbefore
  obtain ⟨-, ⟨b, hb, hstop⟩, -⟩ := unionOf_run h hr
  obtain ⟨⟨a, ha, hstart⟩, -⟩ := unionOf_run h hs
  have := hbefore b hb a ha
  omega

theorem exists_preferred (h : Chains cs rs) (hr : r ∈ rs) (hm : m ∈ r) :
    ∃ p ∈ cs, Linked cs m p ∧ Preferred cs p ∧ (unionOf r).rule = p.rule := by
  obtain ⟨-, -, -, first, rest, rfl, hprimary⟩ := unionOf_run h hr
  obtain ⟨hmem, hbest⟩ := primaryOf_spec first rest
  obtain ⟨hcs, hlink⟩ := (h.chain _ hr m hm _).mp hmem
  refine ⟨_, hcs, hlink, ?_, hprimary⟩
  intro b hb hlink'
  exact hbest b ((h.chain _ hr _ hmem b).mpr ⟨hb, hlink'⟩)

/-- The match of a chain covers what its candidates cover. -/
theorem unionOf_covers (h : Chains cs rs) (hr : r ∈ rs) (hm : m ∈ r) (i : Nat) :
    (unionOf r).Covers i ↔ ∃ c ∈ cs, Linked cs m c ∧ c.Covers i := by
  obtain ⟨⟨a, ha, hstart⟩, ⟨b, hb, hstop⟩, hall, -⟩ := unionOf_run h hr
  unfold ScanMatch.Covers
  constructor
  · rintro ⟨hlow, hhigh⟩
    have hcs : a ∈ cs := (h.members a).mpr ⟨r, hr, ha⟩
    have hab : Linked cs a b := ((h.chain r hr a ha b).mp hb).2
    obtain ⟨c, hc, hac, hcover⟩ := hab.covers hcs (hstart ▸ hlow) (hstop ▸ hhigh)
    have hcr : c ∈ r := (h.chain r hr a ha c).mpr ⟨hc, hac⟩
    exact ⟨c, hc, ((h.chain r hr m hm c).mp hcr).2, hcover⟩
  · rintro ⟨c, hc, hmc, hlow, hhigh⟩
    have hcr : c ∈ r := (h.chain r hr m hm c).mpr ⟨hc, hmc⟩
    have := hall c hcr
    omega

end Chains

/-! ## All matches -/

/-- Sorted and apart, with the bytes of the candidates, and one for every maximal chain. -/
theorem resolveConflicts_chains (env : Env) (hsort : SortSpec env.sortMatches) (cs : List ScanMatch)
    (hspan : ∀ c ∈ cs, c.start < c.stop) :
    (resolveConflicts env cs).Pairwise (fun m n => m.start < n.start ∧ m.stop ≤ n.start) ∧
      (∀ i, (∃ m ∈ resolveConflicts env cs, m.Covers i) ↔ ∃ c ∈ cs, c.Covers i) ∧
      ∀ m ∈ resolveConflicts env cs, ∃ p ∈ cs, m.rule = p.rule ∧
        (∀ i, m.Covers i ↔ ∃ c ∈ cs, Linked cs p c ∧ c.Covers i) ∧ ∀ c ∈ cs, Linked cs p c → Outranks p c := by
  obtain ⟨rs, hout, hchains, -⟩ := resolveConflicts_spec hsort hspan
  rw [hout]
  refine ⟨?_, fun i => ⟨?_, ?_⟩, ?_⟩
  · rw [List.pairwise_map]
    refine (unions_apart hchains).imp_of_mem fun {r s} hr _ hrs => ⟨?_, hrs⟩
    obtain ⟨a, ha⟩ := List.exists_mem_of_ne_nil r (hchains.nonempty r hr)
    obtain ⟨-, -, hall, -⟩ := unionOf_run hchains hr
    have := hall a ha
    have := hspan a ((hchains.members a).mpr ⟨r, hr, ha⟩)
    omega
  · rintro ⟨m, hm, hcover⟩
    obtain ⟨r, hr, rfl⟩ := List.mem_map.mp hm
    obtain ⟨a, ha⟩ := List.exists_mem_of_ne_nil r (hchains.nonempty r hr)
    obtain ⟨c, hc, -, hcover⟩ := (unionOf_covers hchains hr ha i).mp hcover
    exact ⟨c, hc, hcover⟩
  · rintro ⟨c, hc, hcover⟩
    obtain ⟨r, hr, hcr⟩ := (hchains.members c).mp hc
    exact ⟨unionOf r, List.mem_map_of_mem hr, (unionOf_covers hchains hr hcr i).mpr ⟨c, hc, .refl, hcover⟩⟩
  · intro m hm
    obtain ⟨r, hr, rfl⟩ := List.mem_map.mp hm
    obtain ⟨a, ha⟩ := List.exists_mem_of_ne_nil r (hchains.nonempty r hr)
    obtain ⟨p, hp, hap, hbest, hrule⟩ := exists_preferred hchains hr ha
    have hpr : p ∈ r := (hchains.chain r hr a ha p).mpr ⟨hp, hap⟩
    refine ⟨p, hp, hrule, unionOf_covers hchains hr hpr, fun c hc hpc => ?_⟩
    rw [outranks_iff]
    exact hbest c hc hpc

/-- Three candidates of which no one overlaps both others, and one that only touches the last. -/
def chainCandidates : List ScanMatch :=
  [⟨6, 9, some (sampleCompiled "last" "(?m)ghi" "LAST")⟩, ⟨3, 7, some (sampleCompiled "middle" "(?m)defg" "MIDDLE")⟩,
    ⟨0, 4, some (sampleCompiled "first" "(?m)abcd" "FIRST")⟩, ⟨9, 12, some (sampleCompiled "next" "(?m)jkl" "NEXT")⟩]

theorem resolveConflicts_chains_sample :
    let found := resolveConflicts (sampleEnv fun _ _ => none) chainCandidates
    found.map (fun m => (m.start, m.stop, m.rule.map fun cr => cr.rule.id)) =
        [(0, 9, some (ascii "first")), (9, 12, some (ascii "next"))] ∧
      found.Pairwise (fun m n => m.start < n.start ∧ m.stop ≤ n.start) ∧
      (∀ i, (∃ m ∈ found, m.Covers i) ↔ ∃ c ∈ chainCandidates, c.Covers i) ∧
      ∀ m ∈ found, ∃ p ∈ chainCandidates, m.rule = p.rule ∧
        (∀ i, m.Covers i ↔ ∃ c ∈ chainCandidates, Linked chainCandidates p c ∧ c.Covers i) ∧
        ∀ c ∈ chainCandidates, Linked chainCandidates p c → Outranks p c :=
  ⟨by decide, resolveConflicts_chains (sampleEnv fun _ _ => none) sampleSort_spec chainCandidates (by decide)⟩

end LlmGuard
