import ModeTree.Action.Registry
import ModeTree.Proofs.NameTable
import Mathlib.Data.Set.Card

/-!
# Registrations

A host registers callbacks under names, takes them away again and invokes them. Which callback a name has can be
read off the calls that the host has made: it is the one of the latest registration of that name which no later
call has taken away (`Latest`). One more call registers a name, takes it away or leaves it with what it had
(`gives_perform`), so after any calls a registry has the callbacks that they give. `after_follows` draws the
conclusions. An invocation runs the latest callback once and no other, as the marks show that callbacks leave
behind (`runs`); it tells how that callback ended; and the names in the registry are those with such a
registration, which no invocation changes.
-/

set_option autoImplicit false

namespace ModeTree

universe u

variable {σ : Type u}

/-- A table is as large as the set of its names. -/
theorem NameTable.size_eq_ncard {α : Type u} (t : NameTable α) : t.size = {name | name ∈ t.names}.ncard := by
  have hnodup : t.names.Nodup := nodup_of_ascending t.names_ascending
  have hset : {name | name ∈ t.names} = (t.names.toFinset : Set String) := by
    ext name
    simp
  rw [hset, Set.ncard_coe_finset, List.toFinset_card_of_nodup hnodup]
  exact (List.length_map _).symm

/-- What stands in a list with one more member at the end. -/
theorem getElem?_concat_eq_some_iff {α : Type u} {xs : List α} {x y : α} {j : Nat} :
    (xs ++ [x])[j]? = some y ↔ xs[j]? = some y ∨ (j = xs.length ∧ x = y) := by
  rcases Nat.lt_trichotomy j xs.length with hlt | rfl | hgt
  · rw [List.getElem?_append_left hlt]
    simp [Nat.ne_of_lt hlt]
  · simp
  · rw [List.getElem?_eq_none (by simpa using hgt), List.getElem?_eq_none (Nat.le_of_lt hgt)]
    simp [Nat.ne_of_gt hgt]

/-! ## Callbacks and how they end -/

/-- The callback for a host that also keeps marks: it adds its own and does the same otherwise. -/
def Callback.marked (mark : Nat) (callback : Callback σ) : Callback (σ × List Nat) := fun host =>
  let (ending, after) := callback host.1
  (ending, after, host.2 ++ [mark])

/-- The routine for a host that also keeps marks: it adds its own and does the same otherwise. -/
def Routine.marked (mark : Nat) (routine : Routine σ) : Routine (σ × List Nat) := fun host =>
  let (thrown, after) := routine host.1
  (thrown, after, host.2 ++ [mark])

namespace Ending

theorem outcome_ne_missing (e : Ending) : e.outcome ≠ .missing := by
  cases e <;> simp [outcome]

theorem outcome_eq_completed_iff {e : Ending} : e.outcome = .completed ↔ e = .completed := by
  cases e <;> simp [outcome]

theorem exists_outcome_eq_failed_iff {e : Ending} : (∃ error, e.outcome = .failed error) ↔ e ≠ .completed := by
  cases e <;> simp [outcome]

end Ending

namespace Registry

/-- What a host asks of a registry. -/
inductive Call (σ : Type u) where
  | register (name : String) (callback : Callback σ)
  | registerRoutine (name : String) (routine : Routine σ)
  | unregister (name : String)
  | invoke (name : String)

/-- What a call answers. -/
inductive Reply where
  | registered
  | unregistered (existed : Bool)
  | invoked (outcome : InvokeOutcome)
  deriving DecidableEq, Repr

/-- A registry, and the state of the host that its callbacks act on. -/
structure Hosted (σ : Type u) where
  registry : Registry σ
  host : σ

namespace Hosted

/-- A host that has registered nothing. -/
def new (host : σ) : Hosted σ := ⟨.empty, host⟩

/-- Makes a call: what it answers, and the host with its registry then. -/
def perform (s : Hosted σ) : Call σ → Reply × Hosted σ
  | .register name callback => (.registered, { s with registry := s.registry.register name callback })
  | .registerRoutine name routine => (.registered, { s with registry := s.registry.registerRoutine name routine })
  | .unregister name =>
    let (existed, registry) := s.registry.remove name
    (.unregistered existed, { s with registry })
  | .invoke name =>
    let (outcome, host) := s.registry.invoke name s.host
    (.invoked outcome, { s with host })

/-- The host and its registry after some calls, made one after the other. -/
def performAll (s : Hosted σ) (calls : List (Call σ)) : Hosted σ :=
  calls.foldl (fun s call => (s.perform call).2) s

/-- A host that has made some calls, beginning with nothing registered. -/
def after (calls : List (Call σ)) (host : σ) : Hosted σ := (new host).performAll calls

/-- The callback that a name has now. -/
def callback? (s : Hosted σ) (name : String) : Option (Callback σ) := s.registry.callbacks.get? name

end Hosted

/-! ## Registrations among calls -/

/-- The name that a call registers, with its callback. -/
def Call.registration? : Call σ → Option (String × Callback σ)
  | register name callback => some (name, callback)
  | registerRoutine name routine => some (name, routine.callback)
  | unregister _ => none
  | invoke _ => none

/-- The call at a position registers a callback for a name, and no later call takes it away. -/
structure Standing (calls : List (Call σ)) (name : String) (i : Nat) (callback : Callback σ) : Prop where
  registers : ∃ call, calls[i]? = some call ∧ call.registration? = some (name, callback)
  stays : ∀ j, i < j → calls[j]? ≠ some (.unregister name)

/-- The latest registration of a name that no later call takes away. -/
structure Latest (calls : List (Call σ)) (name : String) (i : Nat) (callback : Callback σ) : Prop where
  standing : Standing calls name i callback
  last : ∀ j other, Standing calls name j other → j ≤ i

/-- A registration of the name has not been taken away. -/
def Registered (calls : List (Call σ)) (name : String) : Prop := ∃ i callback, Standing calls name i callback

/-- The callback that the calls give to a name: that of the latest registration that stands, if one does. -/
def Gives (calls : List (Call σ)) (name : String) : Option (Callback σ) → Prop
  | some callback => ∃ i, Latest calls name i callback
  | none => ¬ Registered calls name

variable {calls : List (Call σ)} {call : Call σ} {name : String} {i : Nat} {callback : Callback σ}

theorem Standing.lt_length (h : Standing calls name i callback) : i < calls.length := by
  obtain ⟨call, hcall, -⟩ := h.registers
  exact (List.getElem?_eq_some_iff.1 hcall).1

theorem Latest.registered (h : Latest calls name i callback) : Registered calls name := ⟨i, callback, h.standing⟩

/-- There is one latest registration only. -/
theorem Latest.unique {j : Nat} {other : Callback σ} (h : Latest calls name i callback)
    (h' : Latest calls name j other) : i = j ∧ callback = other := by
  obtain rfl : i = j := Nat.le_antisymm (h'.last i callback h.standing) (h.last j other h'.standing)
  obtain ⟨call, hcall, hregisters⟩ := h.standing.registers
  obtain ⟨call', hcall', hregisters'⟩ := h'.standing.registers
  obtain rfl : call = call' := Option.some.inj (hcall.symm.trans hcall')
  have hsame := hregisters.symm.trans hregisters'
  simpa using hsame

/-- One more call: a registration stands if it is this call, or if it stood before and this call does not take it
away. -/
theorem standing_concat_iff :
    Standing (calls ++ [call]) name i callback ↔
      (i = calls.length ∧ call.registration? = some (name, callback)) ∨
        (Standing calls name i callback ∧ call ≠ .unregister name) := by
  constructor
  · rintro ⟨⟨registering, hcall, hregisters⟩, hstays⟩
    rcases getElem?_concat_eq_some_iff.1 hcall with hbefore | ⟨rfl, rfl⟩
    · refine .inr ⟨⟨⟨registering, hbefore, hregisters⟩, ?_⟩, ?_⟩
      · intro j hij hj
        exact hstays j hij (getElem?_concat_eq_some_iff.2 (.inl hj))
      · intro hlast
        have hlt := (List.getElem?_eq_some_iff.1 hbefore).1
        exact hstays calls.length hlt (getElem?_concat_eq_some_iff.2 (.inr ⟨rfl, hlast⟩))
    · exact .inl ⟨rfl, hregisters⟩
  · rintro (⟨rfl, hregisters⟩ | ⟨hstanding, hother⟩)
    · refine ⟨⟨call, getElem?_concat_eq_some_iff.2 (.inr ⟨rfl, rfl⟩), hregisters⟩, ?_⟩
      intro j hij hj
      rcases getElem?_concat_eq_some_iff.1 hj with hbefore | ⟨rfl, -⟩
      · exact Nat.lt_asymm hij (List.getElem?_eq_some_iff.1 hbefore).1
      · exact Nat.lt_irrefl _ hij
    · obtain ⟨registering, hbefore, hregisters⟩ := hstanding.registers
      refine ⟨⟨registering, getElem?_concat_eq_some_iff.2 (.inl hbefore), hregisters⟩, ?_⟩
      intro j hij hj
      rcases getElem?_concat_eq_some_iff.1 hj with hbefore | ⟨-, hlast⟩
      · exact hstanding.stays j hij hbefore
      · exact hother hlast

/-- A registration is the latest one right after it has been made. -/
theorem latest_concat (h : call.registration? = some (name, callback)) :
    Latest (calls ++ [call]) name calls.length callback := by
  refine ⟨standing_concat_iff.2 (.inl ⟨rfl, h⟩), ?_⟩
  intro j other hj
  rcases standing_concat_iff.1 hj with ⟨rfl, -⟩ | ⟨hbefore, -⟩
  · exact Nat.le_refl _
  · exact Nat.le_of_lt hbefore.lt_length

/-- Nothing stands of a name right after it has been taken away. -/
theorem not_registered_concat : ¬ Registered (calls ++ [.unregister name]) name := by
  rintro ⟨i, callback, hstanding⟩
  rcases standing_concat_iff.1 hstanding with ⟨-, hregisters⟩ | ⟨-, hother⟩
  · simp [Call.registration?] at hregisters
  · exact hother rfl

/-- A call that neither registers a name nor takes it away leaves the registrations of that name as they are. -/
theorem standing_concat_other (hregisters : ∀ callback, call.registration? ≠ some (name, callback))
    (hother : call ≠ .unregister name) (i : Nat) (callback : Callback σ) :
    Standing (calls ++ [call]) name i callback ↔ Standing calls name i callback := by
  simp [standing_concat_iff, hregisters, hother]

theorem Latest.concat (h : Latest calls name i callback)
    (hregisters : ∀ callback, call.registration? ≠ some (name, callback)) (hother : call ≠ .unregister name) :
    Latest (calls ++ [call]) name i callback := by
  refine ⟨(standing_concat_other hregisters hother i callback).2 h.standing, ?_⟩
  intro j other hj
  exact h.last j other ((standing_concat_other hregisters hother j other).1 hj)

theorem Gives.concat {found : Option (Callback σ)} (h : Gives calls name found)
    (hregisters : ∀ callback, call.registration? ≠ some (name, callback)) (hother : call ≠ .unregister name) :
    Gives (calls ++ [call]) name found := by
  cases found with
  | none =>
      rintro ⟨i, callback, hstanding⟩
      exact h ⟨i, callback, (standing_concat_other hregisters hother i callback).1 hstanding⟩
  | some callback =>
      obtain ⟨i, hlatest⟩ := h
      exact ⟨i, hlatest.concat hregisters hother⟩

/-! ## The table of a registry -/

theorem Hosted.after_concat (calls : List (Call σ)) (call : Call σ) (host : σ) :
    after (calls ++ [call]) host = ((after calls host).perform call).2 := by
  simp [after, performAll]

theorem Hosted.perform_registerRoutine (s : Hosted σ) (name : String) (routine : Routine σ) :
    s.perform (.registerRoutine name routine) = s.perform (.register name routine.callback) := rfl

theorem Hosted.callback?_register (s : Hosted σ) (name other : String) (callback : Callback σ) :
    (s.perform (.register name callback)).2.callback? other =
      if name = other then some callback else s.callback? other :=
  NameTable.get?_insert _ _ _ _

theorem Hosted.callback?_unregister (s : Hosted σ) (name other : String) :
    (s.perform (.unregister name)).2.callback? other = if name = other then none else s.callback? other :=
  NameTable.get?_erase _ _ _

/-- One more call keeps it so that a registry has the callbacks that the calls give. -/
theorem gives_perform {s : Hosted σ} (h : ∀ name, Gives calls name (s.callback? name)) (call : Call σ)
    (name : String) : Gives (calls ++ [call]) name ((s.perform call).2.callback? name) := by
  -- both ways to register a callback put it into the table
  have hregister : ∀ other callback, call.registration? = some (other, callback) →
      Gives (calls ++ [call]) name (if other = name then some callback else s.callback? name) := by
    intro other callback hcall
    split
    · next heq => exact ⟨calls.length, latest_concat (heq ▸ hcall)⟩
    · next hother =>
        apply (h name).concat
        · simp [hcall, hother]
        · rintro rfl
          simp [Call.registration?] at hcall
  cases call with
  | register other callback =>
      rw [Hosted.callback?_register]
      exact hregister other callback rfl
  | registerRoutine other routine =>
      rw [Hosted.perform_registerRoutine, Hosted.callback?_register]
      exact hregister other routine.callback rfl
  | unregister other =>
      rw [Hosted.callback?_unregister]
      split
      · next heq => exact heq ▸ not_registered_concat
      · next hother =>
          apply (h name).concat
          · simp [Call.registration?]
          · simpa using hother
  | invoke other =>
      apply (h name).concat
      · simp [Call.registration?]
      · simp

/-- After any calls a registry has the callbacks that they give. -/
theorem gives_after (calls : List (Call σ)) (host : σ) (name : String) :
    Gives calls name ((Hosted.after calls host).callback? name) := by
  induction calls using List.reverseRecOn generalizing name with
  | nil =>
      rintro ⟨i, callback, hstanding⟩
      exact Nat.not_lt_zero i hstanding.lt_length
  | append_singleton calls call ih =>
      rw [Hosted.after_concat]
      exact gives_perform ih call name

/-! ## Invocations -/

theorem Gives.eq_some {found : Option (Callback σ)} (h : Gives calls name found)
    (hlatest : Latest calls name i callback) : found = some callback := by
  cases found with
  | none => exact absurd hlatest.registered h
  | some other =>
      obtain ⟨j, hother⟩ := h
      rw [(hlatest.unique hother).2]

theorem Gives.eq_none {found : Option (Callback σ)} (h : Gives calls name found)
    (hnone : ¬ Registered calls name) : found = none := by
  cases found with
  | none => rfl
  | some callback =>
      obtain ⟨i, hlatest⟩ := h
      exact absurd hlatest.registered hnone

/-- A name has a callback exactly when a registration of it stands. -/
theorem Gives.isSome_iff {found : Option (Callback σ)} (h : Gives calls name found) :
    found.isSome = true ↔ Registered calls name := by
  cases found with
  | none => exact iff_of_false Bool.false_ne_true h
  | some callback =>
      obtain ⟨i, hlatest⟩ := h
      exact iff_of_true rfl hlatest.registered

namespace Hosted

variable {s : Hosted σ}

theorem perform_invoke_of_some (h : s.callback? name = some callback) :
    s.perform (.invoke name) = (.invoked (callback s.host).1.outcome, { s with host := (callback s.host).2 }) := by
  rw [callback?] at h
  simp only [perform, Registry.invoke, h]

theorem perform_invoke_of_none (h : s.callback? name = none) :
    s.perform (.invoke name) = (.invoked .missing, s) := by
  rw [callback?] at h
  simp only [perform, Registry.invoke, h]

/-- What can be said of the outcome of an invocation, other than that there is no callback, is said of the way the
latest callback ends. -/
theorem reply_invoke_iff (h : Gives calls name (s.callback? name)) {P : Reply → Prop}
    (hmissing : ¬ P (.invoked .missing)) :
    P (s.perform (.invoke name)).1 ↔
      ∃ i callback, Latest calls name i callback ∧ P (.invoked (callback s.host).1.outcome) := by
  cases hfound : s.callback? name with
  | none =>
      rw [hfound] at h
      rw [perform_invoke_of_none hfound]
      refine iff_of_false hmissing ?_
      rintro ⟨i, callback, hlatest, -⟩
      exact h hlatest.registered
  | some callback =>
      rw [hfound] at h
      obtain ⟨i, hlatest⟩ := h
      rw [perform_invoke_of_some hfound]
      constructor
      · intro hP
        exact ⟨i, callback, hlatest, hP⟩
      · rintro ⟨j, other, hother, hP⟩
        rwa [(hlatest.unique hother).2]

end Hosted

/-! ## Marks -/

/-- The call for a host that keeps marks; what it registers leaves the mark. -/
def Call.marked (mark : Nat) : Call σ → Call (σ × List Nat)
  | register name callback => .register name (callback.marked mark)
  | registerRoutine name routine => .registerRoutine name (routine.marked mark)
  | unregister name => .unregister name
  | invoke name => .invoke name

/-- The calls, each of which marks what it registers with its own position. -/
def marked (calls : List (Call σ)) : List (Call (σ × List Nat)) := calls.mapIdx Call.marked

/-- The callbacks that run in the course of some calls, in order, each by the position of its registration. -/
def runs (calls : List (Call σ)) (host : σ) : List Nat :=
  (Hosted.after (marked calls) (host, [])).host.2

theorem marked_concat (calls : List (Call σ)) (call : Call σ) :
    marked (calls ++ [call]) = marked calls ++ [call.marked calls.length] := List.mapIdx_concat

theorem Call.registration?_marked (mark : Nat) (call : Call σ) :
    (call.marked mark).registration? = call.registration?.map fun r => (r.1, r.2.marked mark) := by
  cases call <;> rfl

theorem Call.marked_eq_unregister_iff {mark : Nat} {call : Call σ} :
    call.marked mark = .unregister name ↔ call = .unregister name := by
  cases call <;> simp [Call.marked]

theorem getElem?_marked (calls : List (Call σ)) (j : Nat) :
    (marked calls)[j]? = calls[j]?.map (Call.marked j) := List.getElem?_mapIdx

/-- Marks leave the registrations that stand where they are. -/
theorem standing_marked_iff {found : Callback (σ × List Nat)} :
    Standing (marked calls) name i found ↔
      ∃ callback, Standing calls name i callback ∧ callback.marked i = found := by
  have hstays : (∀ j, i < j → (marked calls)[j]? ≠ some (.unregister name)) ↔
      ∀ j, i < j → calls[j]? ≠ some (.unregister name) := by
    simp [getElem?_marked, Call.marked_eq_unregister_iff]
  constructor
  · rintro ⟨⟨call', hcall', hfound⟩, h⟩
    rw [getElem?_marked] at hcall'
    obtain ⟨call, hcall, rfl⟩ := Option.map_eq_some_iff.1 hcall'
    rw [Call.registration?_marked] at hfound
    obtain ⟨⟨name', callback⟩, hregisters, heq⟩ := Option.map_eq_some_iff.1 hfound
    obtain ⟨rfl, rfl⟩ := Prod.mk.inj heq
    exact ⟨callback, ⟨⟨call, hcall, hregisters⟩, hstays.1 h⟩, rfl⟩
  · rintro ⟨callback, ⟨⟨call, hcall, hregisters⟩, h⟩, rfl⟩
    refine ⟨⟨call.marked i, ?_, ?_⟩, hstays.2 h⟩
    · rw [getElem?_marked, hcall, Option.map_some]
    · rw [Call.registration?_marked, hregisters, Option.map_some]

theorem registered_marked_iff : Registered (marked calls) name ↔ Registered calls name := by
  constructor
  · rintro ⟨i, found, hfound⟩
    obtain ⟨callback, hstanding, -⟩ := standing_marked_iff.1 hfound
    exact ⟨i, callback, hstanding⟩
  · rintro ⟨i, callback, hstanding⟩
    exact ⟨i, _, standing_marked_iff.2 ⟨callback, hstanding, rfl⟩⟩

theorem Latest.marked (h : Latest calls name i callback) : Latest (marked calls) name i (callback.marked i) := by
  refine ⟨standing_marked_iff.2 ⟨callback, h.standing, rfl⟩, ?_⟩
  intro j found hj
  obtain ⟨other, hother, -⟩ := standing_marked_iff.1 hj
  exact h.last j other hother

/-! ## What a host does in the course of its calls -/

/-- A call either invokes a name that has a callback, or it runs none. -/
theorem invokes_or_not (calls : List (Call σ)) (host : σ) (call : Call σ) :
    (∃ name i callback, call = .invoke name ∧ Latest calls name i callback) ∨
      ∀ name, call = .invoke name → ¬ Registered calls name := by
  by_cases hregistered : ∃ name, call = .invoke name ∧ Registered calls name
  · obtain ⟨name, rfl, hname⟩ := hregistered
    have hgives := gives_after calls host name
    obtain ⟨callback, hfound⟩ := Option.isSome_iff_exists.1 (hgives.isSome_iff.2 hname)
    rw [hfound] at hgives
    obtain ⟨i, hlatest⟩ := hgives
    exact .inl ⟨name, i, callback, rfl, hlatest⟩
  · refine .inr ?_
    intro name hcall hname
    exact hregistered ⟨name, hcall, hname⟩

theorem host_after_invoke (h : Latest calls name i callback) (host : σ) :
    (Hosted.after (calls ++ [.invoke name]) host).host = (callback (Hosted.after calls host).host).2 := by
  have hfound := (gives_after calls host name).eq_some h
  rw [Hosted.after_concat, Hosted.perform_invoke_of_some hfound]

/-- A call that runs no callback leaves the host as it is. -/
theorem host_after_other (h : ∀ name, call = .invoke name → ¬ Registered calls name) (host : σ) :
    (Hosted.after (calls ++ [call]) host).host = (Hosted.after calls host).host := by
  rw [Hosted.after_concat]
  cases call with
  | register name callback => rfl
  | registerRoutine name routine => rfl
  | unregister name => rfl
  | invoke name =>
      have hfound := (gives_after calls host name).eq_none (h name rfl)
      rw [Hosted.perform_invoke_of_none hfound]

theorem marked_invoke (h : Latest calls name i callback) (host : σ) :
    (Hosted.after (marked (calls ++ [.invoke name])) (host, [])).host =
      ((callback (Hosted.after (marked calls) (host, [])).host.1).2, runs calls host ++ [i]) := by
  rw [marked_concat]
  exact host_after_invoke h.marked (host, [])

theorem marked_other (h : ∀ name, call = .invoke name → ¬ Registered calls name) (host : σ) :
    (Hosted.after (marked (calls ++ [call])) (host, [])).host = (Hosted.after (marked calls) (host, [])).host := by
  rw [marked_concat]
  apply host_after_other
  intro name hcall hname
  have hcall' : call = .invoke name := by cases call <;> simp_all [Call.marked]
  exact h name hcall' (registered_marked_iff.1 hname)

/-- Marks change nothing but the list that they are kept in. -/
theorem host_marked (calls : List (Call σ)) (host : σ) :
    (Hosted.after (marked calls) (host, [])).host = ((Hosted.after calls host).host, runs calls host) := by
  refine Prod.ext ?_ rfl
  induction calls using List.reverseRecOn with
  | nil => rfl
  | append_singleton calls call ih =>
      rcases invokes_or_not calls host call with ⟨name, i, callback, rfl, hlatest⟩ | hother
      · rw [marked_invoke hlatest, host_after_invoke hlatest, ih]
      · rw [marked_other hother, host_after_other hother, ih]

/-! ## The registry follows the registrations -/

/-- A host and its registry are as some calls, made from the beginning, leave them. -/
structure Hosted.Follows (s : Hosted σ) (calls : List (Call σ)) : Prop where
  /-- An invocation runs the latest callback on the state of the host and tells how it ended. -/
  invoke_latest : ∀ name i callback, Latest calls name i callback →
    s.perform (.invoke name) = (.invoked (callback s.host).1.outcome, { s with host := (callback s.host).2 })
  /-- A name without a registration that stands is passed over. -/
  invoke_other : ∀ name, ¬ Registered calls name → s.perform (.invoke name) = (.invoked .missing, s)
  missing_iff : ∀ name, (s.perform (.invoke name)).1 = .invoked .missing ↔ ¬ Registered calls name
  completed_iff : ∀ name, (s.perform (.invoke name)).1 = .invoked .completed ↔
    ∃ i callback, Latest calls name i callback ∧ (callback s.host).1 = .completed
  failed_iff : ∀ name, (∃ error, (s.perform (.invoke name)).1 = .invoked (.failed error)) ↔
    ∃ i callback, Latest calls name i callback ∧ (callback s.host).1 ≠ .completed
  /-- An invocation leaves the registry as it is, however the callback ends. -/
  registry_invoke : ∀ name, (s.perform (.invoke name)).2.registry = s.registry
  unregister_iff : ∀ name, (s.perform (.unregister name)).1 = .unregistered true ↔ Registered calls name
  contains_iff : ∀ name, s.registry.contains name = true ↔ Registered calls name
  mem_names_iff : ∀ name, name ∈ s.registry.names ↔ Registered calls name
  names_ascending : s.registry.names.Pairwise (· < ·)
  size_eq : s.registry.size = {name | Registered calls name}.ncard

theorem Hosted.follows_of_gives {s : Hosted σ} (h : ∀ name, Gives calls name (s.callback? name)) :
    s.Follows calls := by
  have hcontains : ∀ name, s.registry.contains name = true ↔ Registered calls name := by
    intro name
    exact (h name).isSome_iff
  have hnames : ∀ name, name ∈ s.registry.names ↔ Registered calls name := by
    intro name
    exact (NameTable.mem_names_iff _ name).trans (hcontains name)
  have hascending := s.registry.callbacks.names_ascending
  refine ⟨?_, ?_, ?_, ?_, ?_, fun name => rfl, ?_, hcontains, hnames, hascending, ?_⟩
  · intro name i callback hlatest
    exact perform_invoke_of_some ((h name).eq_some hlatest)
  · intro name hnone
    exact perform_invoke_of_none ((h name).eq_none hnone)
  · intro name
    rw [← (h name).isSome_iff]
    cases hfound : s.callback? name with
    | none => simp [perform_invoke_of_none hfound]
    | some callback => simp [perform_invoke_of_some hfound, Ending.outcome_ne_missing]
  · intro name
    rw [reply_invoke_iff (h name) (P := fun reply => reply = .invoked .completed) (by simp)]
    simp [Ending.outcome_eq_completed_iff]
  · intro name
    rw [reply_invoke_iff (h name) (P := fun reply => ∃ error, reply = .invoked (.failed error)) (by simp)]
    simp [Ending.exists_outcome_eq_failed_iff]
  · intro name
    rw [← hcontains]
    exact ⟨Reply.unregistered.inj, congrArg _⟩
  · rw [size, NameTable.size_eq_ncard]
    exact congrArg Set.ncard (Set.ext hnames)

/-- A registry follows the latest registrations. After any calls, an invocation runs the callback of the latest
registration of its name that has not been taken away, on the state that the host is in, and answers with the way
the callback ended; without such a registration it is passed over. That callback leaves one mark, so it runs once,
and no other callback leaves any; calls that are no invocations run none. The names in the registry are those with
such a registration. -/
theorem after_follows (calls : List (Call σ)) (host : σ) :
    (Hosted.after calls host).Follows calls ∧
      (Hosted.after (marked calls) (host, [])).host = ((Hosted.after calls host).host, runs calls host) ∧
      (∀ name i callback, Latest calls name i callback →
        runs (calls ++ [.invoke name]) host = runs calls host ++ [i]) ∧
      ∀ call, (∀ name, call = .invoke name → ¬ Registered calls name) →
        runs (calls ++ [call]) host = runs calls host := by
  refine ⟨Hosted.follows_of_gives (gives_after calls host), host_marked calls host, ?_, ?_⟩
  · intro name i callback hlatest
    exact congrArg Prod.snd (marked_invoke hlatest host)
  · intro call hother
    exact congrArg Prod.snd (marked_other hother host)

/-- A lamp that flashes, until a registration that takes the place of the first one makes it panic. -/
def lampCalls : List (Call Nat) :=
  [.registerRoutine "flash" fun n => (none, n + 1), .register "fade" fun n => (.failed "no lamp", n),
    .invoke "flash", .registerRoutine "flash" fun n => (some .other, n + 10), .unregister "fade"]

theorem lampCalls_eq : lampCalls = lampCalls.take 3 ++
    [.registerRoutine "flash" fun n => (some .other, n + 10)] ++ [.unregister "fade"] := rfl

theorem latest_lampCalls : Latest lampCalls "flash" 3 (Routine.callback fun n => (some .other, n + 10)) := by
  rw [lampCalls_eq]
  refine Latest.concat (latest_concat rfl) ?_ ?_
  · simp [Call.registration?]
  · simp

theorem not_registered_lampCalls : ¬ Registered lampCalls "fade" := by
  rw [lampCalls_eq]
  exact not_registered_concat

/-- The second callback of the lamp is the one that runs, and its panic takes nothing away. -/
theorem after_follows_lamp :
    let s := Hosted.after lampCalls 0
    s.perform (.invoke "flash") =
        (.invoked (.failed (.panicked "non-string panic payload")), { s with host := 11 }) ∧
      s.perform (.invoke "fade") = (.invoked .missing, s) ∧
      s.registry.contains "flash" = true ∧ "fade" ∉ s.registry.names ∧
      runs (lampCalls ++ [.invoke "flash"]) 0 = [0, 3] := by
  intro s
  obtain ⟨hfollows, -, hruns, -⟩ := after_follows lampCalls 0
  refine ⟨?_, hfollows.invoke_other _ not_registered_lampCalls, ?_, ?_, ?_⟩
  · exact (hfollows.invoke_latest _ _ _ latest_lampCalls).trans (by rfl)
  · exact (hfollows.contains_iff _).2 latest_lampCalls.registered
  · exact mt (hfollows.mem_names_iff _).1 not_registered_lampCalls
  · exact (hruns _ _ _ latest_lampCalls).trans (by rfl)

end Registry

end ModeTree
