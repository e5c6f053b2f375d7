/-!
# Codes and names

The closed enumerations of the format. Some are written as numbers and some as words; a document
keeps the number or the word, and `Coded.ofCode?` or `Named.ofName?` says what it stands for.
-/

namespace GltfAsset

/-- An enumeration that is written as numbers. -/
class Coded (α : Type) where
  /-- All members. -/
  all : List α
  /-- The number of a member. -/
  code : α → Int64

/-- The member with the given number. -/
def Coded.ofCode? (α : Type) [Coded α] (n : Int64) : Option α :=
  (Coded.all : List α).find? (Coded.code · = n)

/-- An enumeration that is written as words. -/
class Named (α : Type) where
  /-- All members. -/
  all : List α
  /-- The word of a member. -/
  name : α → String

/-- The member with the given word. -/
def Named.ofName? (α : Type) [Named α] (s : String) : Option α :=
  (Named.all : List α).find? (Named.name · = s)

/-- The types of the components of an accessor. -/
inductive ComponentType where
  /-- Signed, one byte. -/
  | byte
  /-- Unsigned, one byte. -/
  | unsignedByte
  /-- Signed, two bytes. -/
  | short
  /-- Unsigned, two bytes. -/
  | unsignedShort
  /-- Unsigned, four bytes. -/
  | unsignedInt
  /-- Floating point, four bytes. -/
  | float
deriving DecidableEq, Repr

instance : Coded ComponentType where
  all := [.byte, .unsignedByte, .short, .unsignedShort, .unsignedInt, .float]
  code
    | .byte => 5120
    | .unsignedByte => 5121
    | .short => 5122
    | .unsignedShort => 5123
    | .unsignedInt => 5125
    | .float => 5126

/-- The uses that a buffer view is made for. -/
inductive BufferTarget where
  /-- Vertex attributes. -/
  | arrayBuffer
  /-- Vertex indices. -/
  | elementArrayBuffer
deriving DecidableEq, Repr

instance : Coded BufferTarget where
  all := [.arrayBuffer, .elementArrayBuffer]
  code
    | .arrayBuffer => 34962
    | .elementArrayBuffer => 34963

/-- The ways in which the vertices of a primitive are joined. -/
inductive PrimitiveMode where
  /-- Single points. -/
  | points
  /-- Single lines. -/
  | lines
  /-- A closed chain of lines. -/
  | lineLoop
  /-- An open chain of lines. -/
  | lineStrip
  /-- Single triangles. -/
  | triangles
  /-- A strip of triangles. -/
  | triangleStrip
  /-- A fan of triangles. -/
  | triangleFan
deriving DecidableEq, Repr

instance : Coded PrimitiveMode where
  all := [.points, .lines, .lineLoop, .lineStrip, .triangles, .triangleStrip, .triangleFan]
  code
    | .points => 0
    | .lines => 1
    | .lineLoop => 2
    | .lineStrip => 3
    | .triangles => 4
    | .triangleStrip => 5
    | .triangleFan => 6

/-- The filters for magnification. -/
inductive MagFilter where
  /-- The nearest texel. -/
  | nearest
  /-- The weighted mean of the nearest texels. -/
  | linear
deriving DecidableEq, Repr

instance : Coded MagFilter where
  all := [.nearest, .linear]
  code
    | .nearest => 9728
    | .linear => 9729

/-- The filters for reduction. -/
inductive MinFilter where
  /-- The nearest texel. -/
  | nearest
  /-- The weighted mean of the nearest texels. -/
  | linear
  /-- The nearest texel of the nearest level. -/
  | nearestMipmapNearest
  /-- The mean of texels of the nearest level. -/
  | linearMipmapNearest
  /-- The mean over levels of the nearest texels. -/
  | nearestMipmapLinear
  /-- The mean over levels of means of texels. -/
  | linearMipmapLinear
deriving DecidableEq, Repr

instance : Coded MinFilter where
  all := [.nearest, .linear, .nearestMipmapNearest, .linearMipmapNearest,
    .nearestMipmapLinear, .linearMipmapLinear]
  code
    | .nearest => 9728
    | .linear => 9729
    | .nearestMipmapNearest => 9984
    | .linearMipmapNearest => 9985
    | .nearestMipmapLinear => 9986
    | .linearMipmapLinear => 9987

/-- The continuations of a picture beyond its edges. -/
inductive WrappingMode where
  /-- The texels of the edge. -/
  | clampToEdge
  /-- The picture, mirrored each time. -/
  | mirroredRepeat
  /-- The picture again. -/
  | repeat
deriving DecidableEq, Repr

instance : Coded WrappingMode where
  all := [.clampToEdge, .mirroredRepeat, .repeat]
  code
    | .clampToEdge => 33071
    | .mirroredRepeat => 33648
    | .repeat => 10497

/-- The types of the elements of an accessor. -/
inductive AccessorType where
  /-- Single numbers. -/
  | scalar
  /-- Vectors of two numbers. -/
  | vec2
  /-- Vectors of three numbers. -/
  | vec3
  /-- Vectors of four numbers. -/
  | vec4
  /-- Matrices of two rows. -/
  | mat2
  /-- Matrices of three rows. -/
  | mat3
  /-- Matrices of four rows. -/
  | mat4
deriving DecidableEq, Repr

instance : Named AccessorType where
  all := [.scalar, .vec2, .vec3, .vec4, .mat2, .mat3, .mat4]
  name
    | .scalar => "SCALAR"
    | .vec2 => "VEC2"
    | .vec3 => "VEC3"
    | .vec4 => "VEC4"
    | .mat2 => "MAT2"
    | .mat3 => "MAT3"
    | .mat4 => "MAT4"

/-- The properties of a node that an animation moves. -/
inductive Path where
  /-- The translation. -/
  | translation
  /-- The rotation. -/
  | rotation
  /-- The scale. -/
  | scale
  /-- The weights of the morph targets. -/
  | weights
deriving DecidableEq, Repr

instance : Named Path where
  all := [.translation, .rotation, .scale, .weights]
  name
    | .translation => "translation"
    | .rotation => "rotation"
    | .scale => "scale"
    | .weights => "weights"

/-- The ways between the values of an animation. -/
inductive Interpolation where
  /-- Straight. -/
  | linear
  /-- The value before. -/
  | step
  /-- Along a cubic spline. -/
  | cubicSpline
deriving DecidableEq, Repr

instance : Named Interpolation where
  all := [.linear, .step, .cubicSpline]
  name
    | .linear => "LINEAR"
    | .step => "STEP"
    | .cubicSpline => "CUBICSPLINE"

/-- The kinds of cameras. -/
inductive CameraType where
  /-- With foreshortening. -/
  | perspective
  /-- Without foreshortening. -/
  | orthographic
deriving DecidableEq, Repr

instance : Named CameraType where
  all := [.perspective, .orthographic]
  name
    | .perspective => "perspective"
    | .orthographic => "orthographic"

/-- The media types of pictures. -/
inductive MimeType where
  /-- JPEG. -/
  | jpeg
  /-- PNG. -/
  | png
deriving DecidableEq, Repr

instance : Named MimeType where
  all := [.jpeg, .png]
  name
    | .jpeg => "image/jpeg"
    | .png => "image/png"

/-- The ways in which alpha is used. -/
inductive AlphaMode where
  /-- Not at all. -/
  | solid
  /-- All or nothing, by a limit. -/
  | mask
  /-- As a weight. -/
  | blend
deriving DecidableEq, Repr

instance : Named AlphaMode where
  all := [.solid, .mask, .blend]
  name
    | .solid => "OPAQUE"
    | .mask => "MASK"
    | .blend => "BLEND"

/-- The number of bytes of a component. -/
def ComponentType.size : ComponentType → Nat
  | byte | unsignedByte => 1
  | short | unsignedShort => 2
  | unsignedInt | float => 4

/-- Whether components are integers without sign. -/
def ComponentType.isUnsignedInteger : ComponentType → Bool
  | unsignedByte | unsignedShort | unsignedInt => true
  | _ => false

/-- The number of components of an element. -/
def AccessorType.components : AccessorType → Nat
  | scalar => 1
  | vec2 => 2
  | vec3 => 3
  | vec4 | mat2 => 4
  | mat3 => 9
  | mat4 => 16

end GltfAsset
