import GltfAsset.Check.Rule
import GltfAsset.Document.Basic

/-!
# The rules for the hierarchy

What cameras, nodes and scenes have to satisfy, in the order in which it is looked at. Whether the
nodes form a hierarchy at all is not a matter of one node, but of the graph of all.
-/

namespace GltfAsset

open Check Rule

/-- What is seen is not flat: its measures are positive, and the far plane, which is not at zero, is
behind the near one. -/
def Orthographic.rules (o : Orthographic) : List Rule :=
  [positive ["xmag"] o.xmag, positive ["ymag"] o.ymag,
    float (fun z => ¬ z.Same 0 ∧ o.znear < z) ["zfar"] o.zfar]

namespace Perspective

/-- The 64-bit float next to the angle of a half turn. -/
def halfTurn : Double := .ofQuotient false 884279719003555 (1 <<< 48)

/-- What is seen is less than half of all, starts in front of the camera, and ends behind the near
plane; a far plane at zero counts as none. -/
def rules (p : Perspective) : List Rule :=
  ifGiven p.aspectRatio (fun x => [positive ["aspectRatio"] x]) ++
  [float (fun x => x.convert .double < halfTurn) ["yfov"] p.yfov, positive ["znear"] p.znear] ++
  ifGiven p.zfar fun z => [float (fun z => z.Same 0 ∨ p.znear < z) ["zfar"] z]

end Perspective

namespace Camera

/-- A projection is there, and the one of the other kind is not. -/
def projectionRules {α β : Type} (own other : CameraType) (projection : Option α)
    (second : Option β) (rules : α → List Rule) : List Rule :=
  [need projection.isSome [Named.name own] .missing,
    need (second.isSome = false) [Named.name other] (.conflicting (Named.name own))] ++
  ifGiven projection fun p => (rules p).map (within [Named.name own])

/-- A camera has the projection of its kind. -/
def rules (c : Camera) : List Rule :=
  [named CameraType ["type"] c.type] ++
  ifGiven (Named.ofName? CameraType c.type) fun
    | .orthographic =>
      projectionRules .orthographic .perspective c.orthographic c.perspective Orthographic.rules
    | .perspective =>
      projectionRules .perspective .orthographic c.perspective c.orthographic Perspective.rules

end Camera

/-- What stands at a node is there, its transformation is given in one way, and no child is given
twice or is the node itself. -/
def Node.rules (d : Document) (place : Nat) (n : Node) : List Rule :=
  ifGiven n.camera (fun i => [index ["camera"] i d.cameras.size]) ++
  ifGiven n.skin (fun i => [index ["skin"] i d.skins.size]) ++
  ifGiven n.mesh (fun i => [index ["mesh"] i d.meshes.size]) ++
  [need (¬ (n.matrix.isSome ∧ n.hasParts)) ["matrix"]
    (.conflicting "translation/rotation/scale")] ++
  indices ["children"] n.children d.nodes.size ++
  n.children.zipIdx.map fun (i, k) => need (i.toInt ≠ place) ["children", k] (.cycle place)

/-- The roots of a scene are there, and none is given twice. -/
def Scene.rules (d : Document) (s : Scene) : List Rule := indices ["nodes"] s.nodes d.nodes.size

end GltfAsset
