import ModeTree.Document.Resolution

/-!
# The ring designer

The modes of a designer for rings. The modeller runs four machines side by side: one for rendering, one
for keys that act at once, one for undoing and redoing, and one for editing, whose modes share the
machine of the camera. Escape leaves everything, and its release starts afresh.
-/

namespace ModeTree.RingDesigner

/-- An arrow with its stimuli. -/
def arrow (target : String) (on : List String) : TransitionEntry := { target := some target, on }

/-- An action with its stimuli. -/
def act (action : String) (on : List String) : TransitionEntry := { action := some action, on }

/-- The whole designer: its machines run side by side until escape is pressed. -/
def modeler : MachineEntry where
  start := "idle_modeler"
  states := .ofList [
    ("idle_modeler", {
      subMachines := ["render", "one_key", "style_main", "undo_redo"]
      transitions := [
        arrow "panic_escape_plan" ["esc:down", "escape_modeler"]] }),
    ("panic_escape_plan", {
      description := some "Release escape to return to the modeler"
      transitions := [
        arrow "idle_modeler" ["esc:up", "return_modeler"]] })]

/-- What is rendered: nothing, the surface, the surface on a hand, or the surface while the camera turns. -/
def render : MachineEntry where
  start := "idle_render"
  states := .ofList [
    ("idle_render", {
      transitions := [
        arrow "rendering" ["s:down"],
        arrow "rendering_hand" ["showHand"]] }),
    ("rendering", {
      enter := ["render.octree_show_surface"]
      exit := ["render.octree_hide_surface"]
      transitions := [
        arrow "idle_render" ["s:down"],
        arrow "rendering_hand" ["showHand"],
        act "render.octreeFitGeom" ["f:down"],
        arrow "cam_rotate" ["space:down"],
        arrow "alternate_rotate" ["mouse1:down"]] }),
    ("rendering_hand", {
      enter := ["render.octree_show_surface", "jweel.showHand"]
      exit := ["render.octree_hide_surface", "jweel.hideHand"]
      transitions := [
        arrow "rendering" ["hideHand"]] }),
    ("cam_rotate", {
      enter := ["render.octree_show_surface", "cam.automatedRotate.launch"]
      exit := ["cam.automatedRotate.stop"]
      transitions := [
        arrow "rendering" ["space:down", "mouse1:down", "mouse3:down"]] }),
    ("alternate_rotate", {
      enter := ["render.octree_show_surface", "cam.rotate.init"]
      exit := ["cam.rotate.finalize"]
      transitions := [
        act "cam.rotate.run" ["mousemove"],
        arrow "rendering" ["mouse1:up"]] })]

/-- Keys that act at once: the symmetries, and adding rings. -/
def oneKey : MachineEntry where
  start := "main"
  states := .ofList [
    ("main", {
      transitions := [
        act "creation.x_symmetry_activate_toggle" ["x:down"],
        act "creation.y_symmetry_activate_toggle" ["c:down"],
        act "creation.z_symmetry_activate_toggle" ["v:down"],
        act "creation.x_symmetry_show_toggle" ["shift+x:down"],
        act "creation.y_symmetry_show_toggle" ["shift+c:down"],
        act "creation.z_symmetry_show_toggle" ["shift+v:down"],
        act "ring.add" ["b:down"],
        act "ring.addTwo" ["n:down"]] })]

/-- Steps back and forth through what was changed. -/
def undoRedo : MachineEntry where
  start := "idle"
  states := .ofList [
    ("idle", {
      transitions := [
        { act "step.prev" ["ctrl+z:down"] with
            label := some ⟨"Edit", "Undo"⟩
            help := some "Press Ctrl + z to undo your last changes" },
        { act "step.next" ["ctrl+y:down"] with
            label := some ⟨"Edit", "Redo"⟩
            help := some "Press Ctrl + y to redo your last changes" }] })]

/-- The modes of editing. Most of them hold the machine of a tool, the camera, or both. -/
def styleMain : MachineEntry where
  start := "viewedit"
  states := .ofList [
    ("viewedit", {
      subMachines := ["camera"]
      hint :=
        .shown ⟨none, some
          "Use the mouse to manipulate scene elements. Hold an action key to perform specific actions."⟩
      transitions := [
        arrow "vertex_modifier" ["mousemove on vertex"],
        arrow "segment_modifier" ["mousemove on segment"],
        arrow "ring_modifier" ["mousemove on ring"],
        { arrow "del" ["d:down", "del:down"] with
            label := some ⟨"Actions", "Delete"⟩
            help := some "Hold Del or d and click an element to delete it" },
        { arrow "merge" ["r:down"] with
            label := some ⟨"Actions", "Merge"⟩
            help := some "Hold r and click the ends of two or more segments to merge them" },
        { arrow "vertex_adder" ["f:down"] with
            label := some ⟨"Actions", "Add a guide"⟩
            help := some "Hold f and click to add a guide. Double-click a guide to create a segment" },
        { arrow "articulation" ["a:down"] with
            label := some ⟨"Actions", "Articulate"⟩
            help := some "Hold a, choose an anchor point and move groups of the same color" },
        act "cam.outputPosition" ["p:down"],
        { arrow "zoom" ["z:down"] with
            label := some ⟨"View", "Zoom"⟩
            help := some "Hold z to enter zoom mode" }] }),
    ("zoom", {
      subMachines := ["camera"]
      transitions := [
        { act "cam.animZoomCursor.increase" ["scroll:up"] with label := some ⟨"View", "Zoom in"⟩ },
        { act "cam.animZoomCursor.decrease" ["scroll:down"] with
            label := some ⟨"View", "Zoom out"⟩ },
        { act "cam.animZoomCursor.center_increase" ["dblclick"] with
            label := some ⟨"View", "Center on cursor"⟩ },
        arrow "viewedit" ["z:up"]] }),
    ("articulation", {
      subMachines := ["hierarchy"]
      hint :=
        .shown ⟨none, some
          "Select an anchor point, then move or rotate groups relative to it."⟩
      transitions := [
        arrow "viewedit" ["a:up"]] }),
    ("del", {
      exit := ["vertex.unhighlight"]
      hint :=
        .shown ⟨none, some
          "Click a guide to delete it. This also deletes the segments attached to it."⟩
      transitions := [
        act "vertex.highlight" ["mousemove on vertex"],
        act "vertex.unhighlight" ["mousemove on out"],
        { act "vertex.delUnderMouse" ["mouse1:down on vertex"] with
            label := some ⟨"Delete", "Delete a guide"⟩
            help := some "Click a guide to delete it along with its segments" },
        { act "primitive.delUnderMouse" ["mouse1:down on segment", "mouse1:down on ring"] with
            label := some ⟨"Delete", "Delete an element"⟩
            help := some "Click an element to delete it" },
        arrow "viewedit" ["d:up", "del:up"]] }),
    ("vertex_adder", {
      subMachines := ["add_vertex"]
      description := some "Click to add a guide wherever you like."
      transitions := [
        arrow "viewedit" ["f:up"]] }),
    ("merge", {
      exit := ["selection.unsetAllVertices"]
      subMachines := ["merge_vertices"]
      hint := .shown ⟨none, some "Select two guides to merge them"⟩
      transitions := [
        arrow "viewedit" ["r:up"]] }),
    ("vertex_modifier", {
      enter := ["vertex.highlight", "vertex.infos.displayInfos", "vertex.infos.updateInfos"]
      exit := ["vertex.unhighlight", "vertex.infos.removeInfos"]
      subMachines := ["vertex_edit", "camera"]
      hint :=
        .shown ⟨none, some
          "Click to move. Double-click to add a segment. Use the wheel to change the guide size."⟩
      transitions := [
        { act "vertex.styleWrap.thickIncrease" ["scroll:up", "i:down"] with
            label := some ⟨"Guide", "Thicken"⟩ },
        { act "vertex.styleWrap.thickDecrease" ["scroll:down", "u:down"] with
            label := some ⟨"Guide", "Thin"⟩ },
        act "vertex.styleWrap.highlight" ["mousemove on vertex"],
        arrow "viewedit" ["mousemove on background"],
        { arrow "del" ["d:down", "del:down"] with help := some "Hold Del to delete guides" },
        { arrow "merge" ["r:down"] with help := some "Hold r to enter merge mode" },
        { arrow "articulation" ["a:down"] with
            help := some "Hold a to enter articulation mode and move several guides at once" },
        { arrow "zoom" ["z:down"] with
            label := some ⟨"View", "Zoom"⟩
            help := some "Hold z to enter zoom mode" },
        { arrow "vertex_adder" ["f:down"] with help := some "Hold f to add guides" },
        arrow "segment_modifier" ["mousemove on segment"],
        arrow "ring_modifier" ["mousemove on ring"]] }),
    ("segment_modifier", {
      subMachines := ["segment_edit", "camera"]
      hint := .shown ⟨none, some "Double-click to split the segment."⟩
      transitions := [
        arrow "viewedit" ["mousemove on background"],
        { arrow "del" ["d:down", "del:down"] with help := some "Hold del to delete guides" },
        { arrow "merge" ["r:down"] with
            help := some "Hold r to enter merge mode and merge several guides together" },
        { arrow "articulation" ["a:down"] with
            help := some "Hold a to enter articulation mode and move several guides at once" },
        { arrow "zoom" ["z:down"] with
            label := some ⟨"View", "Zoom"⟩
            help := some "Hold z to enter zoom mode" },
        { arrow "vertex_adder" ["f:down"] with help := some "Hold f to add guides" },
        arrow "vertex_modifier" ["mousemove on vertex"],
        arrow "ring_modifier" ["mousemove on ring"]] }),
    ("ring_modifier", {
      subMachines := ["ring_edit", "camera"]
      hint := .shown ⟨none, some "Double-click to add guides on the ring"⟩
      transitions := [
        arrow "viewedit" ["mousemove on background"],
        { arrow "del" ["d:down", "del:down"] with help := some "Hold del to delete guides" },
        { arrow "merge" ["r:down"] with
            help := some "Hold r to enter merge mode and merge several guides together" },
        { arrow "articulation" ["a:down"] with
            help := some "Hold a to enter articulation mode and move several guides at once" },
        { arrow "zoom" ["z:down"] with
            label := some ⟨"View", "Zoom"⟩
            help := some "Hold z to enter zoom mode" },
        { arrow "vertex_adder" ["f:down"] with help := some "Hold f to add guides" },
        arrow "vertex_modifier" ["mousemove on vertex"],
        arrow "segment_modifier" ["mousemove on segment"]] })]

/-- Turning the ring with the right button. -/
def camera : MachineEntry where
  start := "idle_cam"
  states := .ofList [
    ("idle_cam", {
      transitions := [
        { arrow "rotate" ["mouse3:down"] with
            label := some ⟨"View", "Rotate"⟩
            help := some "Hold the right button to rotate the ring" }] }),
    ("rotate", {
      enter := ["cam.rotate.init"]
      exit := ["cam.rotate.finalize"]
      hint := .hidden
      description := some "Rotation"
      transitions := [
        act "cam.rotate.run" ["mousemove"],
        arrow "idle_cam" ["mouse3:up"]] })]

/-- Moving a guide, or making a segment of it. -/
def vertexEdit : MachineEntry where
  start := "main"
  states := .ofList [
    ("main", {
      transitions := [
        { arrow "translate" ["mouse1:down"] with label := some ⟨"Guide", "Move"⟩ },
        { act "segment.create" ["dblclick"] with label := some ⟨"Guide", "Create a segment"⟩ }] }),
    ("translate", {
      enter := ["vertex.translate.init", "vertex.infos.updateInfos"]
      exit := ["vertex.translate.finalize"]
      transitions := [
        act "vertex.translate.run" ["mousemove"],
        arrow "main" ["mouse1:up"]] }),
    ("thickness", {
      enter := ["vertex.thick.init"]
      exit := ["vertex.thick.finalize"]
      transitions := [
        act "vertex.thick.run" ["mousemove"],
        arrow "main" ["mouse3:up"]] })]

/-- Moving a segment or splitting it. -/
def segmentEdit : MachineEntry where
  start := "main"
  states := .ofList [
    ("main", {
      description := some "Segment editing"
      transitions := [
        { arrow "translate" ["mouse1:down"] with label := some ⟨"Segment", "Move the segment"⟩ },
        { act "segment.split" ["dblclick"] with label := some ⟨"Segment", "Split"⟩ }] }),
    ("translate", {
      enter := ["prim.translate.init"]
      exit := ["prim.translate.finalize"]
      hint := .hidden
      description := some "Release the mouse to stop moving"
      transitions := [
        act "prim.translate.run" ["mousemove"],
        arrow "main" ["mouse1:up"]] })]

/-- Moving a ring, or adding guides on it. -/
def ringEdit : MachineEntry where
  start := "main"
  states := .ofList [
    ("main", {
      description := some "Ring editing"
      transitions := [
        { arrow "translate" ["mouse1:down"] with label := some ⟨"Ring", "Move the ring"⟩ },
        { act "ring.split" ["dblclick"] with label := some ⟨"Ring", "Add guides on the ring"⟩ }] }),
    ("translate", {
      enter := ["prim.translate.init"]
      exit := ["prim.translate.finalize"]
      hint := .hidden
      description := some "Release the mouse to stop moving"
      transitions := [
        act "prim.translate.run" ["mousemove"],
        arrow "main" ["mouse1:up"]] })]

/-- Adding a guide to what lies under the pointer. -/
def addVertex : MachineEntry where
  start := "main"
  states := .ofList [
    ("main", {
      description := some "Vertex addition"
      transitions := [
        arrow "move_vertex" ["mousemove on vertex"],
        arrow "move_ring" ["mousemove on ring"],
        arrow "move_segment" ["mousemove on segment"]] }),
    ("move_vertex", {
      description := some "Move a guide"
      transitions := [
        { act "vertex.create" ["mouse1:down"] with label := some ⟨"Add a guide", "Add a guide"⟩ },
        arrow "main" ["mousemove on out"]] }),
    ("move_ring", {
      transitions := [
        { act "vertex.create" ["mouse1:down"] with label := some ⟨"Add a guide", "Add a guide"⟩ },
        arrow "main" ["mousemove on out"]] }),
    ("move_segment", {
      transitions := [
        { act "vertex.create" ["mouse1:down"] with label := some ⟨"Add a guide", "Add a guide"⟩ },
        arrow "main" ["mousemove on out"]] })]

/-- Merging two guides, which are selected one after the other. -/
def mergeVertices : MachineEntry where
  start := "main"
  states := .ofList [
    ("main", {
      enter := ["vertex.unhighlight", "selection.unsetAllVertices"]
      transitions := [
        { arrow "highlight_vertex" ["mousemove on vertex"] with
            label := some ⟨"Guide", "Select a guide"⟩ }] }),
    ("highlight_vertex", {
      enter := ["vertex.highlight"]
      exit := ["vertex.unhighlight"]
      transitions := [
        { arrow "selected_vertex" ["mouse1:down"] with label := some ⟨"Guide", "Select a guide"⟩ },
        arrow "main" ["mousemove on out"]] }),
    ("selected_vertex", {
      enter := ["selection.setVertexUnderMouse"]
      transitions := [
        arrow "out_selected_vertex" ["mousemove on out"],
        arrow "main" ["mouse1:down on background"]] }),
    ("out_selected_vertex", {
      transitions := [
        { arrow "highlight_vertex2" ["mousemove on vertex"] with
            label := some ⟨"Guide", "Select the guide to merge"⟩ },
        arrow "main" ["mouse1:down on background"]] }),
    ("highlight_vertex2", {
      enter := ["vertex.highlight"]
      exit := ["vertex.unhighlight"]
      transitions := [
        { act "vertex.merge" ["mouse1:down on vertex"] with
            label := some ⟨"Guide", "Merge with this guide"⟩ },
        arrow "out_selected_vertex" ["mousemove on out"],
        arrow "main" ["mouse1:down on background"]] })]

/-- Choosing the guide at which a group is anchored. -/
def hierarchy : MachineEntry where
  start := "idle_hierarchy"
  states := .ofList [
    ("idle_hierarchy", {
      description := some "Hover a guide to choose an anchor"
      transitions := [
        arrow "choose_anchor" ["mousemove on vertex"]] }),
    ("choose_anchor", {
      enter := ["vertex.highlight"]
      exit := ["vertex.unhighlight"]
      description := some "Click to anchor on this guide"
      transitions := [
        arrow "idle_hierarchy" ["mousemove on out"],
        { arrow "anchor_chosen" ["mouse1:down on vertex"] with
            label := some ⟨"Translation", "Choose an anchor point"⟩ }] }),
    ("anchor_chosen", {
      enter :=
        ["selection.setVertexUnderMouse", "hierarchy.selected_vertex_as_anchor", "hierarchy.color_groups"]
      exit := ["hierarchy.uncolor_groups", "selection.unsetAllVertices"]
      subMachines := ["hierarchy_move"] })]

/-- Moving and turning the group of an anchor. -/
def hierarchyMove : MachineEntry where
  start := "idle_hmove"
  states := .ofList [
    ("idle_hmove", {
      transitions := [
        { arrow "htranslate" ["mouse1:down on vertex"] with
            label := some ⟨"Translate", "Move"⟩
            help := some "Move the subset" },
        arrow "htranslate_prim" ["mouse1:down on segment"],
        { arrow "hrotate" ["mouse3:down on vertex"] with
            label := some ⟨"Translate", "Rotate (anchor)"⟩
            help := some "Rotate the subset around the anchor point" },
        arrow "hrotate_prim" ["mouse3:down on segment"],
        { act "hierarchy.axis_rotate.increase" ["scroll:up on vertex"] with
            label := some ⟨"Translate", "Rotate (axis)"⟩
            help := some "Rotate the subset on itself" },
        act "hierarchy.axis_rotate.decrease" ["scroll:down on vertex"]] }),
    ("htranslate", {
      enter := ["hierarchy.translate.vertex_init"]
      exit := ["hierarchy.translate.finalize"]
      transitions := [
        act "hierarchy.translate.run" ["mousemove"],
        arrow "idle_hmove" ["mouse1:up"]] }),
    ("htranslate_prim", {
      enter := ["hierarchy.translate.prim_init"]
      exit := ["hierarchy.translate.finalize"]
      transitions := [
        act "hierarchy.translate.run" ["mousemove"],
        arrow "idle_hmove" ["mouse1:up"]] }),
    ("hrotate", {
      enter := ["hierarchy.rotate.vertex_init"]
      exit := ["hierarchy.rotate.finalize"]
      transitions := [
        act "hierarchy.rotate.run" ["mousemove"],
        arrow "idle_hmove" ["mouse3:up"]] }),
    ("hrotate_prim", {
      enter := ["hierarchy.rotate.prim_init"]
      exit := ["hierarchy.rotate.finalize"]
      transitions := [
        act "hierarchy.rotate.run" ["mousemove"],
        arrow "idle_hmove" ["mouse3:up"]] })]

/-- The document of the ring designer. -/
def document : Document where
  root := "modeler"
  machines := .ofList [
    ("modeler", modeler),
    ("render", render),
    ("one_key", oneKey),
    ("undo_redo", undoRedo),
    ("style_main", styleMain),
    ("camera", camera),
    ("vertex_edit", vertexEdit),
    ("segment_edit", segmentEdit),
    ("ring_edit", ringEdit),
    ("add_vertex", addVertex),
    ("merge_vertices", mergeVertices),
    ("hierarchy", hierarchy),
    ("hierarchy_move", hierarchyMove)]

/-- The machines of the ring designer. -/
def load (config : Config) : Except (List Defect) MachineSet := document.load config.maxDepth

end ModeTree.RingDesigner
