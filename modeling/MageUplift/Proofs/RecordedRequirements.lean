import Mathlib.Data.List.Pairwise
import MageUplift.Proofs.Confinement

/-!
# What is recorded over a whole run

A file asks for its collaborators one by one. What is recorded in the end depends on the names and on the last
types only (`Accounts`), and it is kept by every step that is not refused (`Accounts.record`). The two policies
take the same steps as long as no name is asked for with two types (`Consistent`); where one is, the strict policy
stops.
-/

namespace MageUplift

open Php TokenStream Call Wiring Magento List
open Settings (CollisionPolicy)

variable {u v : Collaborator} {policy : CollisionPolicy} {front : List Collaborator} {r' : Requirements}
  {name : String} {m : Migrator} {calls : List Invocation}

namespace Wiring

/-! ## §1. Runs. -/

/-- No name is asked for with two types. -/
def Consistent (asked : List Collaborator) : Prop :=
  asked.Pairwise fun u v => u.name = v.name → u.type = v.type

/-- What is recorded once `asked` has been asked for: the names in the order in which they first came, each as it was
asked for last. -/
structure Accounts (asked : List Collaborator) (r : Requirements) : Prop where
  names : r.entries.map Collaborator.name = (asked.map Collaborator.name).eraseDups
  last : ∀ e ∈ r.entries, (asked.reverse.find? fun v => v.name = e.name) = some e

namespace Requirements

/-- Asks for collaborators one by one until one is refused; what is recorded then, and the refusal. -/
def recordUntil (policy : CollisionPolicy) (r : Requirements) : List Collaborator → Requirements × Option Conflict
  | [] => (r, none)
  | v :: vs =>
    match r.record policy v with
    | .ok recorded => recordUntil policy recorded.2 vs
    | .error conflict => (r, some conflict)

theorem recordUntil_cons (policy : CollisionPolicy) (r : Requirements) (v : Collaborator) (vs : List Collaborator) :
    recordUntil policy r (v :: vs)
      = match r.record policy v with
        | .ok recorded => recordUntil policy recorded.2 vs
        | .error conflict => (r, some conflict) := rfl

theorem recordUntil_append
    (back : List Collaborator) : ∀ {r : Requirements}, recordUntil policy r front = (r', none) →
      recordUntil policy r (front ++ back) = recordUntil policy r' back := by
  induction front with
  | nil =>
    intro r h
    cases h
    rfl
  | cons v front ih =>
    intro r h
    rw [recordUntil_cons] at h
    rw [cons_append, recordUntil_cons]
    cases hrec : r.record policy v with
    | ok recorded =>
      rw [hrec] at h
      exact ih h
    | error conflict =>
      rw [hrec] at h
      cases h

theorem record_lastWins (r : Requirements) (v : Collaborator) : ∃ recorded, r.record .lastWins v = .ok recorded := by
  unfold record
  split
  · exact ⟨_, rfl⟩
  · split
    · exact ⟨_, rfl⟩
    · exact ⟨_, rfl⟩

theorem recordUntil_lastWins (vs : List Collaborator) : ∀ r : Requirements, (recordUntil .lastWins r vs).2 = none := by
  induction vs with
  | nil =>
    intro r
    rfl
  | cons v vs ih =>
    intro r
    obtain ⟨recorded, hrec⟩ := record_lastWins r v
    rw [recordUntil_cons, hrec]
    exact ih recorded.2

end Requirements

/-! ## §2. One step. -/

theorem nodup_eraseDups : ∀ names : List String, names.eraseDups.Nodup
  | [] => by simp
  | name :: names => by
    rw [eraseDups_cons, nodup_cons]
    refine ⟨?_, nodup_eraseDups _⟩
    rw [mem_eraseDups, mem_filter]
    simp
termination_by names => names.length
decreasing_by
  have := length_filter_le (fun b => !b == name) names
  simp only [length_cons]
  omega

theorem Consistent.type_eq {asked : List Collaborator} (h : Consistent asked) (hu : u ∈ asked)
    (hv : v ∈ asked) (hname : u.name = v.name) : u.type = v.type := by
  have : Std.Symm fun u v : Collaborator => u.name = v.name → u.type = v.type :=
    ⟨fun _ _ huv hvu => (huv hvu.symm).symm⟩
  exact List.Pairwise.forall_of_forall (fun _ _ _ => rfl) h hu hv hname

theorem accounts_empty : Accounts [] .empty := ⟨rfl, fun _ he => absurd he not_mem_nil⟩

namespace Accounts

variable {asked : List Collaborator} {r : Requirements}

variable (h : Accounts asked r)

include h

theorem mem_names : (∃ e ∈ r.entries, e.name = name) ↔ ∃ v ∈ asked, v.name = name := by
  have hmem : name ∈ r.entries.map Collaborator.name ↔ name ∈ asked.map Collaborator.name := by
    rw [h.names, mem_eraseDups]
  simpa only [mem_map] using hmem

theorem get?_eq (name : String) : r.get? name = asked.reverse.find? fun v => v.name = name := by
  unfold Requirements.get?
  cases hfind : r.entries.find? fun e => e.name = name with
  | some e =>
    have hname : e.name = name := by simpa using find?_some hfind
    rw [← hname]
    exact (h.last e (mem_of_find?_eq_some hfind)).symm
  | none =>
    symm
    rw [find?_eq_none]
    intro v hv hname
    rw [decide_eq_true_eq] at hname
    obtain ⟨e, he, hen⟩ := h.mem_names.mpr ⟨v, mem_reverse.mp hv, hname⟩
    have hnone := find?_eq_none.mp hfind e he
    exact hnone (decide_eq_true hen)

theorem nodup : (r.entries.map Collaborator.name).Nodup := by
  rw [h.names]
  exact nodup_eraseDups _

theorem mem_of_get? {e : Collaborator} (he : r.get? name = some e) : e ∈ asked ∧ e.name = name := by
  rw [h.get?_eq] at he
  exact ⟨mem_reverse.mp (mem_of_find?_eq_some he), by simpa using find?_some he⟩

theorem names_append (v : Collaborator) :
    ((asked ++ [v]).map Collaborator.name).eraseDups
      = r.entries.map Collaborator.name ++ if v.name ∈ asked.map Collaborator.name then [] else [v.name] := by
  rw [map_append, eraseDups_append, h.names]
  congr 1
  by_cases hmem : v.name ∈ asked.map Collaborator.name
  · simp only [map_cons, map_nil, removeAll, filter_cons, filter_nil, elem_eq_mem, hmem]
    rfl
  · simp only [map_cons, map_nil, removeAll, filter_cons, filter_nil, elem_eq_mem, hmem]
    rfl

theorem record {recorded : Recorded × Requirements}
    (hrec : r.record policy v = .ok recorded) : Accounts (asked ++ [v]) recorded.2 := by
  -- an entry under another name is not touched by what was asked for now
  have hother : ∀ e ∈ r.entries, e.name ≠ v.name →
      ((asked ++ [v]).reverse.find? fun w => w.name = e.name) = some e := by
    intro e he hne
    rw [reverse_append, reverse_singleton, singleton_append,
      find?_cons_of_neg (by simpa using Ne.symm hne)]
    exact h.last e he
  have hself : ((asked ++ [v]).reverse.find? fun w => w.name = v.name) = some v := by
    rw [reverse_append, reverse_singleton, singleton_append, find?_cons_of_pos (by simp)]
  unfold Requirements.record at hrec
  split at hrec
  · rename_i hget
    cases hrec
    have hnew : ∀ e ∈ r.entries, e.name ≠ v.name := by
      intro e he
      simpa using find?_eq_none.mp hget e he
    have hfresh : v.name ∉ asked.map Collaborator.name := by
      rw [← mem_eraseDups, ← h.names, mem_map]
      intro hmem
      obtain ⟨e, he, hname⟩ := hmem
      exact hnew e he hname
    refine ⟨?_, ?_⟩
    · rw [h.names_append, if_neg hfresh, map_append]
      rfl
    · intro e he
      rcases mem_append.mp he with he | he
      · exact hother e he (hnew e he)
      · rw [mem_singleton.mp he]
        exact hself
  · rename_i existing hget
    obtain ⟨hasked, hname⟩ := h.mem_of_get? hget
    have hknown : v.name ∈ asked.map Collaborator.name := List.mem_map.mpr ⟨existing, hasked, hname⟩
    split at hrec
    · rename_i htype
      cases hrec
      have hsame : existing = v := by
        cases existing
        cases v
        exact congr (congrArg Collaborator.mk hname) htype
      refine ⟨by rw [h.names_append, if_pos hknown, append_nil], ?_⟩
      intro e he
      by_cases hen : e.name = v.name
      · -- the entry under the name is what was asked for
        have hlast := h.last e he
        rw [hen, ← h.get?_eq, hget, hsame, Option.some.injEq] at hlast
        rw [← hlast]
        exact hself
      · exact hother e he hen
    · split at hrec
      · cases hrec
        refine ⟨?_, ?_⟩
        · rw [h.names_append, if_pos hknown, append_nil, Requirements.replace, map_map]
          apply map_congr_left
          intro e _
          show (if e.name = v.name then v else e).name = e.name
          split
          · rename_i hen
            exact hen.symm
          · rfl
        · intro e he
          obtain ⟨e₀, he₀, heq⟩ := List.mem_map.mp he
          split at heq
          · rw [← heq]
            exact hself
          · rename_i hne
            rw [← heq]
            exact hother e₀ he₀ hne
      · cases hrec

theorem record_reject_of_agrees (hagrees : ∀ u ∈ asked, u.name = v.name → u.type = v.type) :
    r.record .reject v = r.record .lastWins v := by
  unfold Requirements.record
  split
  · rfl
  · rename_i existing hget
    obtain ⟨hasked, hname⟩ := h.mem_of_get? hget
    rw [if_pos (hagrees existing hasked hname), if_pos (hagrees existing hasked hname)]

theorem record_reject_of_clash (hconsistent : Consistent asked) (hu : u ∈ asked) (hname : u.name = v.name)
    (htype : u.type ≠ v.type) : r.record .reject v = .error ⟨v.name, u.type, v.type⟩ := by
  unfold Requirements.record
  cases hget : r.get? v.name with
  | none =>
    rw [h.get?_eq, find?_eq_none] at hget
    exact absurd (decide_eq_true hname) (hget u (mem_reverse.mpr hu))
  | some existing =>
    obtain ⟨hasked, hexisting⟩ := h.mem_of_get? hget
    have hagree : existing.type = u.type := hconsistent.type_eq hasked hu (hexisting.trans hname.symm)
    show (if existing.type = v.type then _ else Except.error (Conflict.mk v.name existing.type v.type)) = _
    rw [hagree, if_neg htype]

end Accounts

/-! ## §3. Whole runs. -/

namespace Requirements

theorem recordUntil_accounts (policy : CollisionPolicy) (vs : List Collaborator) :
    ∀ {asked : List Collaborator} {r : Requirements}, Accounts asked r →
      ∃ front back, vs = front ++ back ∧ Accounts (asked ++ front) (recordUntil policy r vs).1
        ∧ ((recordUntil policy r vs).2 = none → back = []) := by
  induction vs with
  | nil =>
    intro asked r h
    exact ⟨[], [], rfl, by rw [append_nil]; exact h, fun _ => rfl⟩
  | cons v vs ih =>
    intro asked r h
    rw [recordUntil_cons]
    cases hrec : r.record policy v with
    | ok recorded =>
      obtain ⟨front, back, rfl, hacc, hall⟩ := ih (h.record hrec)
      refine ⟨v :: front, back, rfl, ?_, hall⟩
      rwa [append_assoc, singleton_append] at hacc
    | error conflict =>
      exact ⟨[], v :: vs, rfl, by rw [append_nil]; exact h, fun hnone => nomatch hnone⟩

theorem lastWins_accounts (vs : List Collaborator) : Accounts vs (recordUntil .lastWins .empty vs).1 := by
  obtain ⟨front, back, hsplit, hacc, hall⟩ := recordUntil_accounts .lastWins vs accounts_empty
  rw [hall (recordUntil_lastWins vs _), append_nil] at hsplit
  rw [hsplit]
  rwa [nil_append, hsplit] at hacc

theorem reject_of_consistent (vs : List Collaborator) :
    ∀ {asked : List Collaborator} {r : Requirements}, Accounts asked r → Consistent (asked ++ vs) →
      recordUntil .reject r vs = recordUntil .lastWins r vs := by
  induction vs with
  | nil =>
    intro asked r _ _
    rfl
  | cons v vs ih =>
    intro asked r h hconsistent
    have hagrees : ∀ u ∈ asked, u.name = v.name → u.type = v.type := by
      intro u hu
      exact (pairwise_append.mp hconsistent).2.2 u hu v mem_cons_self
    obtain ⟨recorded, hrec⟩ := record_lastWins r v
    rw [recordUntil_cons, recordUntil_cons, h.record_reject_of_agrees hagrees, hrec]
    refine ih (h.record hrec) ?_
    rw [append_assoc]
    exact hconsistent

theorem recordUntil_reject {vs : List Collaborator} (h : Consistent vs) :
    recordUntil .reject .empty vs = ((recordUntil .lastWins .empty vs).1, none) := by
  rw [reject_of_consistent vs accounts_empty h, ← recordUntil_lastWins vs .empty]

/-- **The strict policy stops at the first clash**, with what was recorded before it. -/
theorem recordUntil_reject_of_clash (h : Consistent front)
    (hu : u ∈ front) (hname : u.name = v.name) (htype : u.type ≠ v.type) (back : List Collaborator) :
    recordUntil .reject .empty (front ++ v :: back)
      = ((recordUntil .lastWins .empty front).1, some ⟨v.name, u.type, v.type⟩) := by
  rw [recordUntil_append _ (recordUntil_reject h), recordUntil_cons,
    (lastWins_accounts front).record_reject_of_clash h hu hname htype]

end Requirements

theorem exists_first_clash (vs : List Collaborator) : ∀ {asked : List Collaborator}, Consistent asked →
    ¬ Consistent (asked ++ vs) → ∃ front v back u, vs = front ++ v :: back ∧ Consistent (asked ++ front)
      ∧ u ∈ asked ++ front ∧ u.name = v.name ∧ u.type ≠ v.type := by
  induction vs with
  | nil =>
    intro asked h hnot
    rw [append_nil] at hnot
    exact absurd h hnot
  | cons v vs ih =>
    intro asked h hnot
    by_cases hnext : Consistent (asked ++ [v])
    · rw [← singleton_append, ← append_assoc] at hnot
      obtain ⟨front, w, back, u, rfl, hfront, hu, hclash⟩ := ih hnext hnot
      rw [append_assoc, singleton_append] at hfront hu
      exact ⟨v :: front, w, back, u, rfl, hfront, hu, hclash⟩
    · have hclash : ∃ u ∈ asked, u.name = v.name ∧ u.type ≠ v.type := by
        apply Decidable.byContradiction
        intro hnone
        apply hnext
        refine pairwise_append.mpr ⟨h, pairwise_singleton _ _, ?_⟩
        intro u hu w hw hname
        rw [mem_singleton.mp hw] at hname ⊢
        exact Decidable.byContradiction fun htype => hnone ⟨u, hu, hname, htype⟩
      obtain ⟨u, hu, hname, htype⟩ := hclash
      exact ⟨[], v, vs, u, rfl, by rwa [append_nil], by rwa [append_nil], hname, htype⟩

end Wiring

/-! ## §4. The calls of a file. -/

def askedBy (calls : List Invocation) : List Collaborator := calls.filterMap Invocation.collaborator

theorem foldlM_ask (calls : List Invocation) : ∀ {r : Requirements},
    Requirements.recordUntil m.policy r (askedBy calls) = (r', none) → calls.foldlM m.ask r = .ok r' := by
  induction calls with
  | nil =>
    intro r h
    cases h
    rfl
  | cons inv calls ih =>
    intro r h
    rw [foldlM_cons, Migrator.ask]
    rw [askedBy, filterMap_cons] at h
    cases hv : inv.collaborator with
    | none =>
      rw [hv] at h
      exact ih h
    | some v =>
      rw [hv] at h
      change Requirements.recordUntil m.policy r (v :: askedBy calls) = _ at h
      rw [Requirements.recordUntil_cons] at h
      cases hrec : r.record m.policy v with
      | ok recorded =>
        rw [hrec] at h
        simp only [hrec]
        exact ih h
      | error conflict =>
        rw [hrec] at h
        cases h

theorem collect_of_consistent (h : Consistent (askedBy calls)) :
    m.collect calls = .ok (Requirements.recordUntil .lastWins .empty (askedBy calls)).1 := by
  rw [collect_eq_foldlM]
  apply foldlM_ask
  cases hpolicy : m.policy with
  | lastWins => rw [← Requirements.recordUntil_lastWins (askedBy calls) .empty]
  | reject => exact Requirements.recordUntil_reject h

theorem collect_of_clash (hpolicy : m.policy = .reject) {front : List Invocation} {inv : Invocation}
    (h : Consistent (askedBy front)) (hinv : inv.collaborator = some v) (hu : u ∈ askedBy front)
    (hname : u.name = v.name) (htype : u.type ≠ v.type) (back : List Invocation) :
    m.collect (front ++ inv :: back) = .error (.conflict ⟨v.name, u.type, v.type⟩ inv.pattern inv.span) := by
  have hfront := collect_of_consistent (m := m) h
  rw [collect_eq_foldlM] at hfront
  have hask : m.ask (Requirements.recordUntil .lastWins .empty (askedBy front)).1 inv
      = .error (.conflict ⟨v.name, u.type, v.type⟩ inv.pattern inv.span) := by
    have hacc := Requirements.lastWins_accounts (askedBy front)
    simp only [Migrator.ask, hinv, hpolicy, hacc.record_reject_of_clash h hu hname htype]
  rw [collect_eq_foldlM, foldlM_append, hfront]
  show ((inv :: back).foldlM m.ask _ : Except MigrationError Requirements) = _
  rw [foldlM_cons, hask]
  rfl

theorem exists_first_clashing_call (h : ¬ Consistent (askedBy calls)) :
    ∃ front inv back u v, calls = front ++ inv :: back ∧ Consistent (askedBy front) ∧ inv.collaborator = some v
      ∧ u ∈ askedBy front ∧ u.name = v.name ∧ u.type ≠ v.type := by
  obtain ⟨front, v, back, u, hsplit, hfront, hu, hname, htype⟩ := exists_first_clash (askedBy calls) .nil h
  obtain ⟨calls₁, calls₂, rfl, h₁, h₂⟩ := filterMap_eq_append_iff.mp hsplit
  obtain ⟨silent, inv, calls₃, rfl, hsilent, hinv, -⟩ := filterMap_eq_cons_iff.mp h₂
  -- calls in between that ask for nothing belong to the front
  have hasked : askedBy (calls₁ ++ silent) = front := by
    rw [askedBy, filterMap_append, h₁, filterMap_eq_nil_iff.mpr hsilent, append_nil]
  rw [nil_append] at hfront hu
  refine ⟨calls₁ ++ silent, inv, calls₃, u, v, by simp, ?_, hinv, ?_, hname, htype⟩
  · rwa [hasked]
  · rwa [hasked]

/-- **What is recorded over a whole run.** Names stay distinct. Under the lenient policy the entries are the names
in the order in which they first came, each as it was asked for last. Under the strict policy the run stops at the
first collaborator whose name was asked for with another type, and what was recorded before stays; without one it is
the lenient run. So a file is refused for the first call with such a collaborator, or the policies agree on it. -/
theorem requirements_accumulate :
    (∀ policy vs, ((Requirements.recordUntil policy .empty vs).1.entries.map Collaborator.name).Nodup)
      ∧ (∀ vs, ∃ r, Requirements.recordUntil .lastWins .empty vs = (r, none)
          ∧ r.entries.map Collaborator.name = (vs.map Collaborator.name).eraseDups
          ∧ ∀ e ∈ r.entries, (vs.reverse.find? fun v => v.name = e.name) = some e)
      ∧ (∀ vs, Consistent vs → Requirements.recordUntil .reject .empty vs = Requirements.recordUntil .lastWins .empty vs)
      ∧ (∀ vs, ¬ Consistent vs → ∃ front v back u, vs = front ++ v :: back ∧ Consistent front
          ∧ u ∈ front ∧ u.name = v.name ∧ u.type ≠ v.type
          ∧ Requirements.recordUntil .reject .empty vs
              = ((Requirements.recordUntil .reject .empty front).1, some ⟨v.name, u.type, v.type⟩))
      ∧ ∀ (m : Migrator) (file : String) (s : TokenStream),
          (classKeyword? s = none ∨ Consistent (askedBy (scan m.table s)))
              ∧ { m with policy := .reject }.migrate file s = { m with policy := .lastWins }.migrate file s
            ∨ ∃ front inv back u v, classKeyword? s ≠ none ∧ scan m.table s = front ++ inv :: back
              ∧ Consistent (askedBy front) ∧ inv.collaborator = some v
              ∧ u ∈ askedBy front ∧ u.name = v.name ∧ u.type ≠ v.type
              ∧ { m with policy := .reject }.migrate file s
                  = .error (.conflict ⟨v.name, u.type, v.type⟩ inv.pattern inv.span) := by
  refine ⟨?_, ?_, ?_, ?_, ?_⟩
  · intro policy vs
    obtain ⟨front, back, -, hacc, -⟩ := Requirements.recordUntil_accounts policy vs accounts_empty
    exact hacc.nodup
  · intro vs
    have hacc := Requirements.lastWins_accounts vs
    refine ⟨_, ?_, hacc.names, hacc.last⟩
    rw [← Requirements.recordUntil_lastWins vs .empty]
  · intro vs h
    exact Requirements.reject_of_consistent vs accounts_empty h
  · intro vs h
    obtain ⟨front, v, back, u, hsplit, hfront, hu, hname, htype⟩ := exists_first_clash vs .nil h
    rw [nil_append] at hfront hu
    refine ⟨front, v, back, u, hsplit, hfront, hu, hname, htype, ?_⟩
    rw [hsplit, Requirements.recordUntil_reject_of_clash hfront hu hname htype, Requirements.recordUntil_reject hfront]
  · intro m file s
    rw [migrate_eq, migrate_eq]
    cases hclass : classKeyword? s with
    | none => exact .inl ⟨.inl rfl, rfl⟩
    | some i =>
      by_cases h : Consistent (askedBy (scan m.table s))
      · left
        refine ⟨.inr h, ?_⟩
        rw [collect_of_consistent h, collect_of_consistent h]
      · right
        obtain ⟨front, inv, back, u, v, hsplit, hfront, hinv, hu, hname, htype⟩ := exists_first_clashing_call h
        refine ⟨front, inv, back, u, v, by simp, hsplit, hfront, hinv, hu, hname, htype, ?_⟩
        show (Migrator.collect { m with policy := .reject } (scan m.table s)).bind _ = _
        rw [hsplit, collect_of_clash rfl hfront hinv hu hname htype]
        rfl

end MageUplift
