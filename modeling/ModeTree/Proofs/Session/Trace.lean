import ModeTree.Proofs.Tree.Fresh
import Mathlib.Data.Nat.Find
import Mathlib.Logic.Function.Basic

/-!
# Traces

A trace lists the blocks of actions that a session performs, each with the stay it belongs to: a machine
at a path of the tree in one of its states. Which stays are open follows from the trace alone
(`Occupancy.after`), and a trace is lawful when every block is allowed by the stays that are open before
it. From a lawful trace that leaves nothing open every stay has one beginning and one end, with the stays
and the actions below it in between (`Trace.paired_of_lawful`).
-/

set_option autoImplicit false

namespace ModeTree

/-- A stay in the state at a position of the machine that runs at a path. -/
structure Stay where
  path : List Nat
  machine : Machine
  position : Nat

/-- The state in which a machine stays. -/
def Stay.state (s : Stay) : State Transition Machine := s.machine.stateAt s.position

/-- The stay of a running machine in its current state. -/
def Context.stay (c : Context) : Stay := ⟨c.path, c.tree.machine, c.tree.current⟩

/-- Actions that are performed one after the other: those on entry to and on exit from a state, those of
a transition that leads nowhere, and those of an arrow, between the exit and the entry. -/
inductive Block where
  | entered (stay : Stay)
  | left (stay : Stay)
  | fired (stay : Stay) (names : List String)
  | passed (path : List Nat) (names : List String)

namespace Block

/-- The actions of a block, in order. -/
def actions : Block → List String
  | entered stay => stay.state.enter
  | left stay => stay.state.exit
  | fired _ names => names
  | passed _ names => names

/-- A block with which a stay at a path begins or ends. -/
def Bounds (p : List Nat) : Block → Prop
  | entered stay => stay.path = p
  | left stay => stay.path = p
  | fired _ _ => False
  | passed _ _ => False

end Block

/-- The stay that is open at each path. -/
abbrev Occupancy := List Nat → Option Stay

namespace Occupancy

/-- No stay is open. -/
def empty : Occupancy := fun _ => none

/-- The stays that are open after a block. -/
def step (o : Occupancy) : Block → Occupancy
  | .entered stay => Function.update o stay.path (some stay)
  | .left stay => Function.update o stay.path none
  | .fired _ _ => o
  | .passed _ _ => o

/-- The stays that are open after some blocks. -/
def after (o : Occupancy) (bs : List Block) : Occupancy := bs.foldl step o

/-- A machine belongs at a path if it is the one that the state above it holds in this place. -/
def Admits (o : Occupancy) (path : List Nat) (m : Machine) : Prop :=
  ∀ p k, path = p ++ [k] → ∃ owner, o p = some owner ∧ owner.state.subMachines[k]? = some m

/-- Whether a block may come next: a stay begins at a free path and inside the stay above it, it ends
when nothing is open below it, and it acts while it is open. -/
def Allows (o : Occupancy) : Block → Prop
  | .entered stay => o stay.path = none ∧ o.Admits stay.path stay.machine
  | .left stay => o stay.path = some stay ∧ ∀ q, q ≠ [] → o (stay.path ++ q) = none
  | .fired stay _ => o stay.path = some stay
  | .passed _ _ => True

/-- Every block of a trace is allowed when its turn comes. -/
def Lawful : Occupancy → List Block → Prop
  | _, [] => True
  | o, b :: bs => o.Allows b ∧ Lawful (o.step b) bs

@[simp] theorem after_nil (o : Occupancy) : o.after [] = o := rfl

@[simp] theorem after_cons (o : Occupancy) (b : Block) (bs : List Block) :
    o.after (b :: bs) = (o.step b).after bs := rfl

theorem after_append (o : Occupancy) (as bs : List Block) :
    o.after (as ++ bs) = (o.after as).after bs := List.foldl_append

@[simp] theorem step_entered_self (o : Occupancy) (stay : Stay) :
    o.step (.entered stay) stay.path = some stay := Function.update_self _ _ _

@[simp] theorem step_left_self (o : Occupancy) (stay : Stay) :
    o.step (.left stay) stay.path = none := Function.update_self _ _ _

/-- Only the beginning and the end of a stay change what is open at its path. -/
theorem step_of_not_bounds (o : Occupancy) {b : Block} {p : List Nat} (h : ¬ b.Bounds p) :
    o.step b p = o p := by
  cases b with
  | entered stay => exact Function.update_of_ne (Ne.symm h) _ _
  | left stay => exact Function.update_of_ne (Ne.symm h) _ _
  | fired stay names => rfl
  | passed path names => rfl

theorem after_of_not_bounds (o : Occupancy) {bs : List Block} {p : List Nat}
    (h : ∀ b ∈ bs, ¬ b.Bounds p) : o.after bs p = o p := by
  induction bs generalizing o with
  | nil => rfl
  | cons b bs ih =>
      rw [after_cons, ih (o.step b) fun c hc => h c (List.mem_cons_of_mem _ hc)]
      exact step_of_not_bounds o (h b List.mem_cons_self)

/-- Where all blocks that bound a stay at a path leave the same open there, this is what is open after
them. -/
theorem after_eq_of_bounds (o : Occupancy) {bs : List Block} {p : List Nat} {stay? : Option Stay}
    (hmem : ∃ b ∈ bs, b.Bounds p) (hsame : ∀ b ∈ bs, b.Bounds p → ∀ o : Occupancy, o.step b p = stay?) :
    o.after bs p = stay? := by
  induction bs generalizing o with
  | nil => simp at hmem
  | cons b bs ih =>
      rw [after_cons]
      by_cases hlater : ∃ c ∈ bs, c.Bounds p
      · exact ih (o.step b) hlater fun c hc => hsame c (List.mem_cons_of_mem _ hc)
      · -- the first block is the last one that counts
        obtain ⟨c, hc, hbounds⟩ := hmem
        rw [after_of_not_bounds (o.step b) fun d hd hd' => hlater ⟨d, hd, hd'⟩]
        rcases List.mem_cons.1 hc with rfl | hc
        · exact hsame c List.mem_cons_self hbounds o
        · exact absurd ⟨c, hc, hbounds⟩ hlater

theorem lawful_append (o : Occupancy) (as bs : List Block) :
    o.Lawful (as ++ bs) ↔ o.Lawful as ∧ (o.after as).Lawful bs := by
  induction as generalizing o with
  | nil => simp [Lawful]
  | cons a as ih =>
      rw [List.cons_append, Lawful, Lawful, after_cons, ih (o.step a), and_assoc]

theorem lawful_singleton (o : Occupancy) (b : Block) : o.Lawful [b] ↔ o.Allows b := by simp [Lawful]

theorem Lawful.allows {o : Occupancy} {bs : List Block} (h : o.Lawful bs) {k : Nat} {b : Block}
    (hk : bs[k]? = some b) : (o.after (bs.take k)).Allows b := by
  induction bs generalizing o k with
  | nil => simp at hk
  | cons a bs ih =>
      obtain ⟨ha, hbs⟩ := h
      cases k with
      | zero =>
          obtain rfl : a = b := by simpa using hk
          exact ha
      | succ k => exact ih hbs hk

end Occupancy

namespace Trace

/-- A stay of a trace, from the block with which it begins to the one with which it ends. -/
structure Spans (bs : List Block) (stay : Stay) (i j : Nat) : Prop where
  entered : bs[i]? = some (.entered stay)
  left : bs[j]? = some (.left stay)
  lt : i < j
  between : ∀ k b, i < k → k < j → bs[k]? = some b → ¬ b.Bounds stay.path

/-- A stay of a trace that has begun and not ended. -/
structure OpenSince (bs : List Block) (stay : Stay) (i : Nat) : Prop where
  entered : bs[i]? = some (.entered stay)
  later : ∀ k b, i < k → bs[k]? = some b → ¬ b.Bounds stay.path

/-- Every stay has one beginning and one end. Below the root it lies inside a stay of the machine above,
in the state that holds its machine, and the transitions that lead nowhere act inside their stay. -/
structure Paired (bs : List Block) : Prop where
  ends : ∀ i stay, bs[i]? = some (.entered stay) → ∃! j, Spans bs stay i j
  begins : ∀ j stay, bs[j]? = some (.left stay) → ∃! i, Spans bs stay i j
  nested : ∀ stay i j, Spans bs stay i j → ∀ p k, stay.path = p ++ [k] →
    ∃ owner i' j', Spans bs owner i' j' ∧ i' < i ∧ j < j' ∧ owner.path = p ∧
      owner.state.subMachines[k]? = some stay.machine
  fired : ∀ k stay names, bs[k]? = some (.fired stay names) →
    ∃ i j, Spans bs stay i j ∧ i < k ∧ k < j

open Occupancy (empty)

/-- The stays that are open before the block at a position. -/
def openAt (bs : List Block) (k : Nat) : Occupancy := empty.after (bs.take k)

variable {bs : List Block}

theorem openAt_succ {k : Nat} {b : Block} (h : bs[k]? = some b) :
    openAt bs (k + 1) = (openAt bs k).step b := by
  obtain ⟨hk, rfl⟩ := List.getElem?_eq_some_iff.1 h
  rw [openAt, List.take_succ_eq_append_getElem hk, Occupancy.after_append]
  rfl

theorem openAt_length : openAt bs bs.length = empty.after bs := by
  rw [openAt, List.take_length]

/-- What is open at a path stays so while no stay begins or ends there. -/
theorem openAt_eq {i j : Nat} {p : List Nat} (hij : i ≤ j)
    (h : ∀ k b, i ≤ k → k < j → bs[k]? = some b → ¬ b.Bounds p) : openAt bs j p = openAt bs i p := by
  induction hij with
  | refl => rfl
  | @step j hij ih =>
      have hrec := ih fun k b hik hkj => h k b hik (Nat.lt_succ_of_lt hkj)
      cases hj : bs[j]? with
      | none =>
          have hlen := List.getElem?_eq_none_iff.1 hj
          rw [← hrec, openAt, openAt, List.take_of_length_le hlen, List.take_of_length_le (by omega)]
      | some b =>
          rw [openAt_succ hj, Occupancy.step_of_not_bounds _ (h j b hij (Nat.lt_succ_self j) hj), hrec]

/-- What is open at a path has begun there, and nothing has begun or ended there since. -/
theorem exists_entered {k : Nat} {p : List Nat} {stay : Stay} (h : openAt bs k p = some stay) :
    ∃ i, i < k ∧ bs[i]? = some (.entered stay) ∧ stay.path = p ∧
      ∀ l b, i < l → l < k → bs[l]? = some b → ¬ b.Bounds p := by
  induction k with
  | zero => exact absurd h (by simp [openAt, empty])
  | succ k ih =>
      cases hk : bs[k]? with
      | none =>
          -- the trace is over, and nothing changes any more
          have hlen := List.getElem?_eq_none_iff.1 hk
          have hsame : openAt bs (k + 1) = openAt bs k := by
            rw [openAt, openAt, List.take_of_length_le hlen, List.take_of_length_le (by omega)]
          rw [hsame] at h
          obtain ⟨i, hi, hentered, hpath, hlater⟩ := ih h
          refine ⟨i, by omega, hentered, hpath, ?_⟩
          intro l b hil hlk hl
          have hllen := (List.getElem?_eq_some_iff.1 hl).1
          exact hlater l b hil (by omega) hl
      | some c =>
          rw [openAt_succ hk] at h
          -- the last block that bounds a stay at the path decides
          by_cases hc : c.Bounds p
          · cases c with
            | entered stay' =>
                obtain rfl : stay'.path = p := hc
                obtain rfl : stay' = stay := by simpa using h
                exact ⟨k, Nat.lt_succ_self k, hk, rfl, fun l b hil hlk => by omega⟩
            | left stay' =>
                obtain rfl : stay'.path = p := hc
                exact absurd h (by simp)
            | fired stay' names => exact absurd hc id
            | passed path names => exact absurd hc id
          · rw [Occupancy.step_of_not_bounds _ hc] at h
            obtain ⟨i, hi, hentered, hpath, hlater⟩ := ih h
            refine ⟨i, by omega, hentered, hpath, ?_⟩
            intro l b hil hlk hl
            rcases Nat.lt_or_eq_of_le (Nat.le_of_lt_succ hlk) with hlt | rfl
            · exact hlater l b hil hlt hl
            · obtain rfl : b = c := by simpa [hk] using hl.symm
              exact hc

/-- What has begun at a path where nothing is open in the end has ended, and first of all what begins or
ends there. -/
theorem exists_left (h : empty.Lawful bs) {stay : Stay} (hend : empty.after bs stay.path = none) {i : Nat}
    (hi : bs[i]? = some (.entered stay)) : ∃ j, Spans bs stay i j := by
  have hopen : openAt bs (i + 1) stay.path = some stay := by
    rw [openAt_succ hi, Occupancy.step_entered_self]
  have hlen : i < bs.length := (List.getElem?_eq_some_iff.1 hi).1
  -- the first block after the entry that begins or ends a stay at the path
  have hexists : ∃ j, ∃ b, i < j ∧ bs[j]? = some b ∧ b.Bounds stay.path := by
    by_contra hnone
    have hsame : openAt bs bs.length stay.path = openAt bs (i + 1) stay.path := by
      apply openAt_eq hlen
      intro k b hik _ hk hb
      exact hnone ⟨k, b, hik, hk, hb⟩
    rw [openAt_length, hend, hopen] at hsame
    exact absurd hsame (by simp)
  classical
  obtain ⟨b, hij, hj, hb⟩ := Nat.find_spec hexists
  have hbetween : ∀ k c, i < k → k < Nat.find hexists → bs[k]? = some c → ¬ c.Bounds stay.path := by
    intro k c hik hkj hk hc
    exact Nat.find_min hexists hkj ⟨c, hik, hk, hc⟩
  have hbefore : openAt bs (Nat.find hexists) stay.path = some stay := by
    rw [← hopen]
    exact openAt_eq hij fun k c hik hkj hk => hbetween k c hik hkj hk
  have hallowed : (openAt bs (Nat.find hexists)).Allows b := h.allows hj
  cases b with
  | entered stay' =>
      -- a stay begins at a free path only
      obtain ⟨hfree, -⟩ := hallowed
      rw [show stay'.path = stay.path from hb, hbefore] at hfree
      exact absurd hfree (by simp)
  | left stay' =>
      -- and it is the open stay that ends
      obtain ⟨hsome, -⟩ := hallowed
      rw [show stay'.path = stay.path from hb, hbefore] at hsome
      obtain rfl : stay = stay' := by simpa using hsome
      exact ⟨_, hi, hj, hij, hbetween⟩
  | fired stay' names => exact absurd hb id
  | passed path names => exact absurd hb id

theorem Spans.eq_right {stay : Stay} {i j j' : Nat} (h : Spans bs stay i j) (h' : Spans bs stay i j') :
    j' = j := by
  by_contra hne
  rcases Nat.lt_or_gt_of_ne hne with hlt | hlt
  · exact h.between j' _ h'.lt hlt h'.left rfl
  · exact h'.between j _ h.lt hlt h.left rfl

theorem Spans.eq_left {stay : Stay} {i i' j : Nat} (h : Spans bs stay i j) (h' : Spans bs stay i' j) :
    i' = i := by
  by_contra hne
  rcases Nat.lt_or_gt_of_ne hne with hlt | hlt
  · exact h'.between i _ hlt h.lt h.entered rfl
  · exact h.between i' _ hlt h'.lt h'.entered rfl

/-- A stay is open from its beginning to its end. -/
theorem Spans.openAt_eq_some {stay : Stay} {i j k : Nat} (h : Spans bs stay i j) (hik : i < k)
    (hkj : k ≤ j) : openAt bs k stay.path = some stay := by
  rw [openAt_eq (i := i + 1) hik]
  · rw [openAt_succ h.entered, Occupancy.step_entered_self]
  · intro l b hil hlk hl
    exact h.between l b hil (by omega) hl

/-- What is open at a path, in a trace that leaves nothing open, is a stay that spans this moment. -/
theorem exists_spans (h : empty.Lawful bs) (hend : empty.after bs = empty) {k : Nat} {p : List Nat}
    {stay : Stay} (hk : openAt bs k p = some stay) :
    ∃ i j, Spans bs stay i j ∧ i < k ∧ k ≤ j ∧ stay.path = p := by
  obtain ⟨i, hik, hentered, hpath, hlater⟩ := exists_entered hk
  obtain ⟨j, hspans⟩ := exists_left h (congrFun hend stay.path) hentered
  refine ⟨i, j, hspans, hik, ?_, hpath⟩
  -- an end before this moment would be later than the beginning
  by_contra hjk
  exact hlater j _ hspans.lt (by omega) hspans.left hpath

/-- A stay below the root lies inside the one above it. -/
theorem exists_owner (h : empty.Lawful bs) (hend : empty.after bs = empty) {stay : Stay} {i j : Nat}
    (hspans : Spans bs stay i j) {p : List Nat} {k : Nat} (hpath : stay.path = p ++ [k]) :
    ∃ owner i' j', Spans bs owner i' j' ∧ i' < i ∧ j < j' ∧ owner.path = p ∧
      owner.state.subMachines[k]? = some stay.machine := by
  obtain ⟨-, hadmits⟩ : (openAt bs i).Allows (.entered stay) := h.allows hspans.entered
  obtain ⟨owner, howner, hsub⟩ := hadmits p k hpath
  obtain ⟨i', j', hspans', hi', hij', rfl⟩ := exists_spans h hend howner
  refine ⟨owner, i', j', hspans', hi', ?_, rfl, hsub⟩
  by_contra hj
  -- one block cannot both begin a stay and end another
  have hne : i ≠ j' := by
    intro heq
    have hboth := hspans.entered
    rw [heq, hspans'.left] at hboth
    exact absurd hboth (by simp)
  -- the owner would end while the stay below it is open
  obtain ⟨-, hbelow⟩ : (openAt bs j').Allows (.left owner) := h.allows hspans'.left
  have hfree := hbelow [k] (by simp)
  rw [← hpath, hspans.openAt_eq_some (by omega) (by omega)] at hfree
  exact absurd hfree (by simp)

/-- In a lawful trace that leaves nothing open, the stays are paired and nested. -/
theorem paired_of_lawful (h : empty.Lawful bs) (hend : empty.after bs = empty) : Paired bs where
  ends := by
    intro i stay hi
    obtain ⟨j, hj⟩ := exists_left h (congrFun hend stay.path) hi
    exact ⟨j, hj, fun j' hj' => hj.eq_right hj'⟩
  begins := by
    intro j stay hj
    obtain ⟨hopen, -⟩ : (openAt bs j).Allows (.left stay) := h.allows hj
    obtain ⟨i, hij, hentered, -, hlater⟩ := exists_entered hopen
    have hspans : Spans bs stay i j := ⟨hentered, hj, hij, hlater⟩
    exact ⟨i, hspans, fun i' hi' => hspans.eq_left hi'⟩
  nested := by
    intro stay i j hspans p k hpath
    exact exists_owner h hend hspans hpath
  fired := by
    intro k stay names hk
    have hopen : openAt bs k stay.path = some stay := h.allows hk
    obtain ⟨i, j, hspans, hik, hkj, -⟩ := exists_spans h hend hopen
    refine ⟨i, j, hspans, hik, Nat.lt_of_le_of_ne hkj ?_⟩
    rintro rfl
    rw [hspans.left] at hk
    exact absurd hk (by simp)

/-- The stays that have begun and not ended are those that are open after the trace. -/
theorem exists_openSince_iff (stay : Stay) :
    (∃ i, OpenSince bs stay i) ↔ empty.after bs stay.path = some stay := by
  rw [← openAt_length]
  constructor
  · rintro ⟨i, hi, hlater⟩
    rw [openAt_eq (i := i + 1) (List.getElem?_eq_some_iff.1 hi).1]
    · rw [openAt_succ hi, Occupancy.step_entered_self]
    · intro k b hik _ hk
      exact hlater k b hik hk
  · intro h
    obtain ⟨i, -, hi, -, hlater⟩ := exists_entered h
    refine ⟨i, hi, ?_⟩
    intro k b hik hk
    exact hlater k b hik (List.getElem?_eq_some_iff.1 hk).1 hk

end Trace

end ModeTree
