import ModeTree.Proofs.Machine.Agreement

/-!
# Blueprints

A blueprint is a draft with further blueprints in its states, in place of built machines. It is built from
the inside out: first the machines in its states, then the machine itself. Two blueprints are reorderings of
each other when they differ only in the order in which states are given, at any level (`Reordered`). The
order makes no difference to the machine: one of them builds exactly if the other does, and the machines
agree (`Reordered.exists_build`).
-/

set_option autoImplicit false

namespace ModeTree

/-- A draft with blueprints in its states. -/
structure Blueprint where
  name : String
  start : Option String
  states : List (State TransitionDraft Blueprint)
  maxDepth : Nat := ({} : Config).maxDepth

namespace Blueprint

mutual

/-- The machine of a blueprint, if it and those in it have no defects. -/
def build : Blueprint → Except (List Defect) Machine
  | ⟨name, start, states, maxDepth⟩ => do
    let drafts ← buildStates states
    MachineDraft.build ⟨name, start, drafts, maxDepth⟩

/-- The drafts of some states, if the machines in them have no defects. -/
def buildStates : List (State TransitionDraft Blueprint) → Except (List Defect) (List StateDraft)
  | [] => .ok []
  | s :: rest => do
    let draft ← buildState s
    let drafts ← buildStates rest
    return draft :: drafts

/-- The draft of a state, if the machines in it have no defects. -/
def buildState : State TransitionDraft Blueprint → Except (List Defect) StateDraft
  | ⟨id, enter, exit, transitions, subs, hintMode, description⟩ => do
    let machines ← buildAll subs
    return ⟨id, enter, exit, transitions, machines, hintMode, description⟩

/-- The machines of some blueprints, if they have no defects. -/
def buildAll : List Blueprint → Except (List Defect) (List Machine)
  | [] => .ok []
  | b :: rest => do
    let m ← build b
    let ms ← buildAll rest
    return m :: ms

end

/-- Induction over a blueprint: a blueprint from those in its states. -/
@[elab_as_elim]
theorem induction {motive : Blueprint → Prop}
    (nest : ∀ b : Blueprint, (∀ s ∈ b.states, ∀ sub ∈ s.subMachines, motive sub) → motive b) :
    ∀ b, motive b
  | ⟨name, start, states, maxDepth⟩ =>
    nest ⟨name, start, states, maxDepth⟩ fun s _hs sub _hsub => induction nest sub
termination_by b => sizeOf b
decreasing_by
  have hstate := List.sizeOf_lt_of_mem _hs
  have hsub := List.sizeOf_lt_of_mem _hsub
  cases s
  simp only [Blueprint.mk.sizeOf_spec, State.mk.sizeOf_spec] at *
  omega

/-! ## What a blueprint builds -/

/-- A draft of a state of a blueprint, with the machines in it built. -/
structure Realizes (s : State TransitionDraft Blueprint) (draft : StateDraft) : Prop where
  same : s.Says Eq draft
  subs : List.Forall₂ (fun sub m => sub.build = .ok m) s.subMachines draft.subMachines

theorem buildAll_eq_ok_iff (bs : List Blueprint) (ms : List Machine) :
    buildAll bs = .ok ms ↔ List.Forall₂ (fun b m => b.build = .ok m) bs ms := by
  induction bs generalizing ms with
  | nil => simp [buildAll, eq_comm]
  | cons b bs ih =>
      rw [buildAll, List.forall₂_cons_left_iff, bind_eq_ok_iff]
      constructor
      · rintro ⟨m, hm, hrest⟩
        obtain ⟨rest, hall, heq⟩ := (bind_eq_ok_iff).1 hrest
        exact ⟨m, rest, hm, (ih rest).1 hall, (Except.ok.inj heq).symm⟩
      · rintro ⟨m, rest, hm, hall, rfl⟩
        refine ⟨m, hm, ?_⟩
        rw [(ih rest).2 hall]
        rfl

theorem buildState_eq_ok_iff (s : State TransitionDraft Blueprint) (draft : StateDraft) :
    buildState s = .ok draft ↔ Realizes s draft := by
  obtain ⟨id, enter, exit, transitions, subs, hintMode, description⟩ := s
  rw [buildState, bind_eq_ok_iff]
  constructor
  · rintro ⟨ms, hms, heq⟩
    obtain rfl := Except.ok.inj heq
    exact ⟨⟨rfl, rfl, rfl, List.forall₂_same.2 fun _ _ => rfl, rfl, rfl⟩, (buildAll_eq_ok_iff subs ms).1 hms⟩
  · rintro ⟨hsame, hsubs⟩
    refine ⟨draft.subMachines, (buildAll_eq_ok_iff subs _).2 hsubs, ?_⟩
    have htransitions : transitions = draft.transitions := hsame.transitions_eq
    obtain ⟨rfl, rfl, rfl, -, rfl, rfl⟩ := hsame
    subst htransitions
    rfl

theorem buildStates_eq_ok_iff (ss : List (State TransitionDraft Blueprint)) (drafts : List StateDraft) :
    buildStates ss = .ok drafts ↔ List.Forall₂ Realizes ss drafts := by
  induction ss generalizing drafts with
  | nil => simp [buildStates, eq_comm]
  | cons s ss ih =>
      rw [buildStates, List.forall₂_cons_left_iff, bind_eq_ok_iff]
      constructor
      · rintro ⟨draft, hdraft, hrest⟩
        obtain ⟨rest, hall, heq⟩ := (bind_eq_ok_iff).1 hrest
        exact ⟨draft, rest, (buildState_eq_ok_iff s draft).1 hdraft, (ih rest).1 hall,
          (Except.ok.inj heq).symm⟩
      · rintro ⟨draft, rest, hdraft, hall, rfl⟩
        refine ⟨draft, (buildState_eq_ok_iff s draft).2 hdraft, ?_⟩
        rw [(ih rest).2 hall]
        rfl

/-- A blueprint is built from drafts of its states, as a draft of one machine is. -/
theorem build_eq_ok_iff (b : Blueprint) (m : Machine) :
    b.build = .ok m ↔ ∃ drafts, List.Forall₂ Realizes b.states drafts ∧
      MachineDraft.build ⟨b.name, b.start, drafts, b.maxDepth⟩ = .ok m := by
  obtain ⟨name, start, states, maxDepth⟩ := b
  rw [build, bind_eq_ok_iff]
  simp only [buildStates_eq_ok_iff]

/-- What a blueprint builds is validated. -/
theorem validated_of_build {b : Blueprint} {m : Machine} (h : b.build = .ok m) : m.Validated := by
  induction b using Blueprint.induction generalizing m with
  | nest b ih =>
      obtain ⟨drafts, hdrafts, hm⟩ := (build_eq_ok_iff b m).1 h
      apply Machine.Validated.built ?_ hm
      intro draft hdraft sub hsub
      obtain ⟨s, hs, hrealizes⟩ := exists_of_mem_right hdrafts hdraft
      obtain ⟨inner, hinner, hbuild⟩ := exists_of_mem_right hrealizes.subs hsub
      exact ih s hs inner hinner hbuild

/-! ## The order of states -/

/-- Blueprints that differ only in the order of their states, at any level. The states come in pairs, which
say the same and hold machines that are reorderings in turn. -/
inductive Reordered : Blueprint → Blueprint → Prop
  | intro {b b' : Blueprint}
      {pairs : List (State TransitionDraft Blueprint × State TransitionDraft Blueprint)}
      (name : b.name = b'.name) (start : b.start = b'.start) (limit : b.maxDepth = b'.maxDepth)
      (left : (pairs.map Prod.fst).Perm b.states) (right : (pairs.map Prod.snd).Perm b'.states)
      (same : ∀ p ∈ pairs, p.1.Says Eq p.2)
      (subs : ∀ p ∈ pairs, List.Forall₂ Reordered p.1.subMachines p.2.subMachines) : Reordered b b'

theorem Reordered.refl (b : Blueprint) : b.Reordered b := by
  induction b using Blueprint.induction with
  | nest b ih =>
      have hleft : (b.states.map fun s => (s, s)).map Prod.fst = b.states := by simp [Function.comp_def]
      have hright : (b.states.map fun s => (s, s)).map Prod.snd = b.states := by simp [Function.comp_def]
      refine Reordered.intro rfl rfl rfl (.of_eq hleft) (.of_eq hright) ?_ ?_
      · intro p hp
        obtain ⟨s, -, rfl⟩ := List.mem_map.1 hp
        exact State.Says.refl s
      · intro p hp
        obtain ⟨s, hs, rfl⟩ := List.mem_map.1 hp
        exact List.forall₂_same.2 (ih s hs)

/-- To give the states of a blueprint in another order is a reordering. -/
theorem Reordered.of_perm {name : String} {start : Option String} {maxDepth : Nat}
    {states states' : List (State TransitionDraft Blueprint)} (h : states.Perm states') :
    Reordered ⟨name, start, states, maxDepth⟩ ⟨name, start, states', maxDepth⟩ := by
  obtain ⟨-, -, -, hleft, hright, hsame, hsubs⟩ := Reordered.refl ⟨name, start, states, maxDepth⟩
  exact Reordered.intro rfl rfl rfl hleft (hright.trans h) hsame hsubs

theorem Reordered.symm {b b' : Blueprint} (h : b.Reordered b') : b'.Reordered b := by
  induction b using Blueprint.induction generalizing b' with
  | nest b ih =>
      obtain @⟨_, _, pairs, hname, hstart, hlimit, hleft, hright, hsame, hsubs⟩ := h
      have hfst : (pairs.map Prod.swap).map Prod.fst = pairs.map Prod.snd := by simp [Function.comp_def]
      have hsnd : (pairs.map Prod.swap).map Prod.snd = pairs.map Prod.fst := by simp [Function.comp_def]
      refine Reordered.intro hname.symm hstart.symm hlimit.symm (hfst ▸ hright) (hsnd ▸ hleft) ?_ ?_
      · intro p hp
        obtain ⟨q, hq, rfl⟩ := List.mem_map.1 hp
        exact (hsame q hq).symm
      · intro p hp
        obtain ⟨q, hq, rfl⟩ := List.mem_map.1 hp
        have hstate : q.1 ∈ b.states := hleft.subset (List.mem_map_of_mem hq)
        have hflip := forall₂_imp_of_mem (hsubs q hq) fun sub hsub sub' _ hreordered =>
          ih q.1 hstate sub hsub hreordered
        exact hflip.flip

/-- The same blueprint with its states the other way round. -/
def turned (b : Blueprint) : Blueprint := { b with states := b.states.reverse }

/-- A light that blinks. -/
def blinker : Blueprint :=
  ⟨"blinker", some "light", [
    ⟨"light", [], ["fade"], [⟨.arrow "dark" [], ["tick"], .empty⟩], [], .inherit, none⟩,
    ⟨"dark", [], [], [⟨.arrow "light" ["flash"], ["tick"], .empty⟩], [], .inherit, none⟩], 16⟩

/-- A lamp with a state in which it is on and another machine runs. -/
def lamp (inner : Blueprint) : Blueprint :=
  ⟨"lamp", some "on", [
    ⟨"on", [], [], [⟨.arrow "off" [], ["space:down"], .empty⟩], [inner], .inherit, none⟩,
    ⟨"off", [], [], [⟨.arrow "on" [], ["space:down"], .empty⟩], [], .inherit, none⟩], 16⟩

/-- A lamp that blinks, and one in which both machines have their states the other way round. -/
theorem reordered_lamp : (lamp blinker).Reordered (lamp blinker.turned).turned := by
  have hinner : blinker.Reordered blinker.turned := .of_perm (List.reverse_perm _).symm
  refine @Reordered.intro _ _ ((lamp blinker).states.zip (lamp blinker.turned).states) rfl rfl rfl
    (.refl _) (List.reverse_perm _).symm ?_ ?_
  · intro p hp
    rcases List.mem_cons.1 hp with rfl | hp
    · exact ⟨rfl, rfl, rfl, List.forall₂_same.2 fun _ _ => rfl, rfl, rfl⟩
    · rw [List.eq_of_mem_singleton hp]
      exact .refl _
  · intro p hp
    rcases List.mem_cons.1 hp with rfl | hp
    · exact .cons hinner .nil
    · rw [List.eq_of_mem_singleton hp]
      exact .nil

theorem Realizes.unique {s : State TransitionDraft Blueprint} {draft draft' : StateDraft}
    (h : Realizes s draft) (h' : Realizes s draft') : draft = draft' := by
  have hdraft := (buildState_eq_ok_iff s draft).2 h
  rw [(buildState_eq_ok_iff s draft').2 h'] at hdraft
  exact (Except.ok.inj hdraft).symm

/-- The partner of a state that has a draft has one too, with machines in it that agree. -/
theorem Realizes.exists_partner {s s' : State TransitionDraft Blueprint} {draft : StateDraft}
    (h : Realizes s draft) (hsame : s.Says Eq s')
    (hsubs : List.Forall₂ Reordered s.subMachines s'.subMachines)
    (ih : ∀ sub ∈ s.subMachines, ∀ sub' m, sub.Reordered sub' → sub.build = .ok m →
      ∃ m', sub'.build = .ok m' ∧ m.Agrees m') :
    ∃ draft', Realizes s' draft' ∧ draft.Says Eq draft' ∧
      List.Forall₂ Machine.Agrees draft.subMachines draft'.subMachines := by
  obtain ⟨ms, hbuilt, hagree⟩ := exists_forall₂_of_forall₂ h.subs hsubs
    fun sub hsub m sub' hm hreordered => ih sub hsub sub' m hreordered hm
  let draft' : StateDraft := ⟨s'.id, s'.enter, s'.exit, s'.transitions, ms, s'.hintMode, s'.description⟩
  have hdraft' : s'.Says Eq draft' := ⟨rfl, rfl, rfl, List.forall₂_same.2 fun _ _ => rfl, rfl, rfl⟩
  exact ⟨draft', ⟨hdraft', hbuilt⟩, (h.same.symm.trans hsame).trans hdraft', hagree⟩

/-- A reordering of a blueprint that builds does so too, and the machines agree. -/
theorem Reordered.exists_build {b b' : Blueprint} (h : b.Reordered b') {m : Machine}
    (hm : b.build = .ok m) : ∃ m', b'.build = .ok m' ∧ m.Agrees m' := by
  induction b using Blueprint.induction generalizing b' m with
  | nest b ih =>
      obtain ⟨drafts, hdrafts, hbuild⟩ := (build_eq_ok_iff b m).1 hm
      obtain @⟨_, _, pairs, hname, hstart, hlimit, hleft, hright, hsame, hsubs⟩ := h
      -- each pair of states has a pair of drafts
      have hpairs : ∀ p ∈ pairs, ∃ draft ∈ drafts, Realizes p.1 draft ∧
          ∃ draft', Realizes p.2 draft' ∧ draft.Says Eq draft' ∧
            List.Forall₂ Machine.Agrees draft.subMachines draft'.subMachines := by
        intro p hp
        have hstate : p.1 ∈ b.states := hleft.subset (List.mem_map_of_mem hp)
        obtain ⟨draft, hdraft, hrealizes⟩ := exists_of_mem_left hdrafts hstate
        refine ⟨draft, hdraft, hrealizes, ?_⟩
        apply hrealizes.exists_partner (hsame p hp) (hsubs p hp)
        intro sub hsub sub' m hreordered hm
        exact ih p.1 hstate sub hsub hreordered hm
      obtain ⟨drafts', hdrafts'⟩ : ∃ drafts', List.Forall₂ Realizes b'.states drafts' := by
        apply exists_forall₂
        intro s' hs'
        obtain ⟨p, hp, rfl⟩ := List.mem_map.1 (hright.symm.subset hs')
        obtain ⟨-, -, -, draft', hrealizes', -⟩ := hpairs p hp
        exact ⟨draft', hrealizes'⟩
      have hagrees : MachineDraft.Agrees ⟨b.name, b.start, drafts, b.maxDepth⟩
          ⟨b'.name, b'.start, drafts', b'.maxDepth⟩ := by
        refine ⟨hname, hstart, hlimit, ?_, ?_⟩
        · -- drafts have the ids of their states, and paired states have the same ids
          have hids := map_eq_of_forall₂ hdrafts fun _ _ hrealizes => hrealizes.same.id
          have hids' := map_eq_of_forall₂ hdrafts' fun _ _ hrealizes => hrealizes.same.id
          have hpaired : (pairs.map Prod.fst).map (·.id) = (pairs.map Prod.snd).map (·.id) := by
            rw [List.map_map, List.map_map]
            exact List.map_congr_left fun p hp => (hsame p hp).id
          show (drafts.map (·.id)).Perm (drafts'.map (·.id))
          rw [← hids, ← hids']
          exact (hleft.symm.map _).trans ((List.Perm.of_eq hpaired).trans (hright.map _))
        · intro draft hdraft
          obtain ⟨s, hs, hrealizes⟩ := exists_of_mem_right hdrafts hdraft
          obtain ⟨p, hp, rfl⟩ := List.mem_map.1 (hleft.symm.subset hs)
          obtain ⟨u, -, hu, draft', hrealizes', hsays, hmachines⟩ := hpairs p hp
          obtain rfl := hu.unique hrealizes
          have hstate' : p.2 ∈ b'.states := hright.subset (List.mem_map_of_mem hp)
          obtain ⟨u', hmem', hu'⟩ := exists_of_mem_left hdrafts' hstate'
          obtain rfl := hu'.unique hrealizes'
          exact ⟨u', hmem', hsays, hmachines⟩
      obtain ⟨m', hbuild', hm'⟩ := hagrees.exists_build hbuild
      exact ⟨m', (build_eq_ok_iff b' m').2 ⟨drafts', hdrafts', hbuild'⟩, hm'⟩

end Blueprint

end ModeTree
