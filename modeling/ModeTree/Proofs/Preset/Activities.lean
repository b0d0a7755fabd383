import ModeTree.Proofs.Preset.RingDesigner
import ModeTree.Proofs.Session.Activity

/-!
# Activities of the ring designer

The states of the ring designer stop on exit whatever they start, but for two: the rotations of the
rendering machine show the surface on entry and do not hide it on exit. So escape stops every other activity
from wherever a run has come, and leaves the surface shown exactly when one of these two states was the last
to show it (`escape_stops`).
-/

set_option autoImplicit false

namespace ModeTree.RingDesigner

universe u

/-- What a state starts and stops on exit. -/
def activities : List Activity := [
  ⟨["jweel.showHand"], "jweel.hideHand"⟩,
  ⟨["cam.automatedRotate.launch"], "cam.automatedRotate.stop"⟩,
  ⟨["cam.rotate.init"], "cam.rotate.finalize"⟩,
  ⟨["vertex.highlight"], "vertex.unhighlight"⟩,
  ⟨["vertex.infos.displayInfos"], "vertex.infos.removeInfos"⟩,
  ⟨["vertex.translate.init"], "vertex.translate.finalize"⟩,
  ⟨["prim.translate.init"], "prim.translate.finalize"⟩,
  ⟨["hierarchy.color_groups"], "hierarchy.uncolor_groups"⟩,
  ⟨["hierarchy.translate.vertex_init", "hierarchy.translate.prim_init"], "hierarchy.translate.finalize"⟩,
  ⟨["hierarchy.rotate.vertex_init", "hierarchy.rotate.prim_init"], "hierarchy.rotate.finalize"⟩]

/-- The surface of the ring is shown until it is hidden. -/
def surface : Activity := ⟨["render.octree_show_surface"], "render.octree_hide_surface"⟩

/-- The states that show the surface on entry and do not hide it on exit. -/
def rotations : List String := ["cam_rotate", "alternate_rotate"]

/-- Every state stops on exit which of these activities it starts. -/
theorem tidy_activities : ∀ a ∈ activities, document.Tidy a [] := by decide +kernel

theorem tidy_surface : document.Tidy surface rotations := by decide +kernel

/-! ## Sessions -/

variable {σ : Type u} {config : Config} {set : MachineSet}

/-- When escape is pressed, every activity but the surface has been stopped, if it had been started at all.
The surface has been hidden, if it had been shown, unless the last state that showed it was one of the two
rotations, which do not hide it. -/
theorem escape_stops (hload : load config = .ok set) (registry : Registry σ) (settings : Config) (host : σ)
    (calls : List Session.Call) {down : Stimulus} (hdown : Stimulus.parse "esc:down" = .ok down)
    (pressed : Instant) :
    let calls' := calls ++ [.dispatch pressed down]
    let names := ((Session.start set.root registry settings host).run calls').journal.names
    let trace := Session.traceFromStart set.root registry settings host calls'
    (∀ a ∈ activities, a.last? names = none ∨ a.last? names = some a.stop) ∧
      ((surface.last? names = none ∨ surface.last? names = some surface.stop) ↔
        ∀ stay, surface.lastBlock? trace = some (.entered stay) → stay.state.id ∉ rotations) := by
  intro calls' names trace
  obtain rfl : escape .down = down := by simpa [parse_escape_down] using hdown
  obtain ⟨subs, hmodes, hsubs⟩ := root_of_load hload
  have hatch : set.root.Hatch (escape .down) (escape .up) 1 := hmodes ▸ hatch_modes hsubs
  have hexit : (set.root.stateAt 1).exit = [] := by
    rw [hmodes]
    rfl
  have hplan : ∀ a : Activity, a.last? (set.root.stateAt 1).exit ≠ some a.stop := by
    intro a
    simp [hexit]
  constructor
  · intro a ha
    have htidy : set.root.Tidy a [] := (tidy_activities a ha).root hload
    apply (Session.stopped_press_iff (wellFormed_root hload) htidy hatch (hplan a) registry settings host
      calls pressed).2
    intro stay _
    exact List.not_mem_nil
  · have htidy : set.root.Tidy surface rotations := tidy_surface.root hload
    exact Session.stopped_press_iff (wellFormed_root hload) htidy hatch (hplan surface) registry settings host
      calls pressed

/-- In a session in which a vertex is being moved, escape stops this and all that goes with it. -/
theorem escape_stops_translate :
    ∃ set, load {} = .ok set ∧ Stimulus.parse "esc:down" = .ok (escape .down) ∧
      ∀ now,
        let calls : List Session.Call :=
          [.dispatch now (.onPlace .move .vertex), .dispatch now (.onPlace (.button 1 .down) .vertex)]
        let names := ((Session.start set.root (.empty : Registry Unit) {} ()).run
          (calls ++ [.dispatch now (escape .down)])).journal.names
        ∀ a ∈ activities, a.last? names = none ∨ a.last? names = some a.stop := by
  obtain ⟨set, hset⟩ := load_standard
  refine ⟨set, hset, parse_escape_down, ?_⟩
  intro now calls
  exact (escape_stops hset .empty {} () calls parse_escape_down now).1

/-- Escape leaves the surface shown when the camera is rotating by itself. -/
theorem surface_left_shown :
    ∃ set, load {} = .ok set ∧
      surface.last? ((Session.start set.root (.empty : Registry Unit) {} ()).run [
        .dispatch ⟨0, 0⟩ (.key "s" .down),
        .dispatch ⟨0, 0⟩ (.key "space" .down),
        .dispatch ⟨0, 0⟩ (escape .down)]).journal.names = some "render.octree_show_surface" := by
  have hlast : ((load {}).toOption.map fun set =>
      surface.last? ((Session.start set.root (.empty : Registry Unit) {} ()).run [
        .dispatch ⟨0, 0⟩ (.key "s" .down),
        .dispatch ⟨0, 0⟩ (.key "space" .down),
        .dispatch ⟨0, 0⟩ (escape .down)]).journal.names) =
      some (some "render.octree_show_surface") := by
    decide +kernel
  obtain ⟨set, hset⟩ := load_standard
  rw [hset] at hlast
  exact ⟨set, hset, Option.some.inj hlast⟩

end ModeTree.RingDesigner
