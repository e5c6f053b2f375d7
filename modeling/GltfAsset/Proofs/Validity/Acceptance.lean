import GltfAsset.Proofs.Hierarchy.Search
import GltfAsset.Proofs.Validity.Rules

/-!
# The check accepts the valid documents

For each kind of entity, all its rules hold exactly if it is valid; so the check of a document finds
nothing exactly if the document is valid.
-/

namespace GltfAsset

open Check Rule

/-- The rules of the asset data hold if they are valid. -/
theorem Asset.all_rules_iff {a : Asset} : All a.rules ↔ a.Valid := by
  simp only [Asset.rules, all_append, all_cons, all_nil, all_ifGiven, holds_need, and_true]
  constructor
  · rintro ⟨⟨-, hmin⟩, hversion⟩
    refine ⟨hversion, fun s hs x hx hge => hmin s hs ⟨x, hx, hge⟩⟩
  · rintro ⟨⟨x, hx, hrange⟩, hmin⟩
    refine ⟨⟨by rw [hx]; rfl, ?_⟩, x, hx, hrange⟩
    rintro s hs ⟨y, hy, hge⟩
    exact hmin s hs y hy hge

/-! ## Binary data -/

/-- The codes of unsigned integers among those of the types of components. -/
theorem exists_isUnsignedInteger_iff {n : Int64} :
    (∃ t ∈ Coded.ofCode? ComponentType n, t.isUnsignedInteger = true) ↔ n ∈ [5121, 5123, 5125] := by
  constructor
  · rintro ⟨t, ht, hunsigned⟩
    obtain rfl := code_of_ofCode?_eq_some ht
    cases t with
    | byte => contradiction
    | unsignedByte => decide
    | short => contradiction
    | unsignedShort => decide
    | unsignedInt => decide
    | float => contradiction
  · intro hn
    simp only [List.mem_cons, List.not_mem_nil, or_false] at hn
    rcases hn with rfl | rfl | rfl
    · exact ⟨.unsignedByte, rfl, rfl⟩
    · exact ⟨.unsignedShort, rfl, rfl⟩
    · exact ⟨.unsignedInt, rfl, rfl⟩

/-- The rules of a sparse overlay hold if it is valid. -/
theorem Accessor.all_sparseRules_iff {d : Document} {count : Int64} {s : Sparse} :
    All (sparseRules d count s) ↔ s.Valid d count := by
  simp only [sparseRules, all_append, all_cons, all_nil, all_ifGiven, holds_need, holds_index,
    holds_integer, holds_nonNegative, exists_isUnsignedInteger_iff, and_true]
  constructor
  · rintro ⟨⟨⟨⟨hcount, hview⟩, hoffset⟩, htype, hvalues⟩, hvaluesOffset⟩
    exact ⟨hcount, hview, hoffset, htype, hvalues, hvaluesOffset⟩
  · rintro ⟨hcount, hview, hoffset, htype, hvalues, hvaluesOffset⟩
    exact ⟨⟨⟨⟨hcount, hview⟩, hoffset⟩, htype, hvalues⟩, hvaluesOffset⟩

/-- A type of elements has the number of components that is listed for it. -/
theorem Accessor.mem_shapes_iff {s : String} {n : Nat} :
    (s, n) ∈ shapes ↔ ∃ t, Named.ofName? AccessorType s = some t ∧ n = t.components := by
  constructor
  · intro h
    simp only [shapes, List.mem_cons, Prod.mk.injEq, List.not_mem_nil, or_false] at h
    rcases h with ⟨rfl, rfl⟩ | ⟨rfl, rfl⟩ | ⟨rfl, rfl⟩ | ⟨rfl, rfl⟩ | ⟨rfl, rfl⟩ | ⟨rfl, rfl⟩ |
      ⟨rfl, rfl⟩
    all_goals exact ⟨_, rfl, rfl⟩
  · rintro ⟨t, ht, rfl⟩
    obtain rfl := name_of_ofName?_eq_some ht
    cases t <;> decide

/-- The rules of an accessor hold if it is valid. -/
theorem Accessor.all_rules_iff {d : Document} {a : Accessor} : All (a.rules d) ↔ a.Valid d := by
  simp only [rules, boundRule, all_append, all_cons, all_nil, all_ifGiven, all_map_within,
    all_sparseRules_iff, holds_need, holds_index, holds_nonNegative, holds_coded, holds_atLeastOne,
    holds_named, and_true]
  constructor
  · rintro ⟨⟨⟨⟨hview, hoffset⟩, hcomponent, hcount, htype⟩, hsparse⟩, hbounds⟩
    obtain ⟨t, ht⟩ := Option.isSome_iff_exists.mp (isSome_ofName?_iff.mpr htype)
    obtain ⟨hmin, hmax⟩ := hbounds t ht
    exact ⟨hview, hoffset, hcomponent, hcount, ⟨_, mem_shapes_iff.mpr ⟨t, ht, rfl⟩⟩, hsparse,
      fun xs hxs => mem_shapes_iff.mpr ⟨t, ht, hmin xs hxs⟩,
      fun xs hxs => mem_shapes_iff.mpr ⟨t, ht, hmax xs hxs⟩⟩
  · rintro ⟨hview, hoffset, hcomponent, hcount, ⟨n, htype⟩, hsparse, hmin, hmax⟩
    obtain ⟨t, ht, -⟩ := mem_shapes_iff.mp htype
    -- The rules for the bounds are those of the one type that the name stands for.
    have hbound : ∀ u ∈ Named.ofName? AccessorType a.type, ∀ xs : List Single,
        (a.type, xs.length) ∈ shapes → xs.length = u.components := by
      intro u hu xs hxs
      obtain ⟨v, hv, hlen⟩ := mem_shapes_iff.mp hxs
      obtain rfl := Option.some.inj (hu.symm.trans hv)
      exact hlen
    refine ⟨⟨⟨⟨hview, hoffset⟩, hcomponent, hcount, ?_⟩, hsparse⟩, fun u hu => ⟨?_, ?_⟩⟩
    · exact isSome_ofName?_iff.mp (ht ▸ rfl)
    · exact fun xs hxs => hbound u hu xs (hmin xs hxs)
    · exact fun xs hxs => hbound u hu xs (hmax xs hxs)

/-- The rules of a buffer hold if it is valid. -/
theorem Buffer.all_rules_iff {b : Buffer} : All b.rules ↔ b.Valid := by
  simp only [Buffer.rules, all_cons, all_nil, and_true]
  exact ⟨fun h => ⟨h⟩, fun h => h.byteLength⟩

/-- The rules of a buffer view hold if it is valid. -/
theorem BufferView.all_rules_iff {d : Document} {v : BufferView} :
    All (v.rules d) ↔ v.Valid d := by
  simp only [rules, all_append, all_cons, all_nil, all_ifGiven, holds_need, holds_index,
    holds_nonNegative, holds_atLeastOne, holds_integer, holds_codedOrZero,
    inRange_iff_exists_names, Option.mem_def, lookup?_eq_some_iff, and_true]
  -- The rule for the end is asked of the buffer that is named, of which there is only one.
  constructor
  · rintro ⟨⟨⟨⟨⟨b, hb⟩, hoffset, hlength⟩, hend⟩, hstride⟩, htarget⟩
    exact ⟨hoffset, hlength, ⟨b, hb, hend b hb⟩, hstride, htarget⟩
  · rintro ⟨hoffset, hlength, ⟨b, hb, hend⟩, hstride, htarget⟩
    exact ⟨⟨⟨⟨⟨b, hb⟩, hoffset, hlength⟩, fun b' hb' => hb'.unique hb ▸ hend⟩, hstride⟩, htarget⟩

/-! ## Motion -/

/-- The rules of a channel hold if it is valid. -/
theorem Channel.all_rules_iff {d : Document} {samplers : Nat} {c : Channel} :
    All (c.rules d samplers) ↔ c.Valid d samplers := by
  simp only [rules, all_append, all_cons, all_nil, all_ifGiven, holds_index, holds_named, and_true]
  constructor
  · rintro ⟨⟨hsampler, hnode⟩, hpath⟩
    exact ⟨hsampler, hnode, hpath⟩
  · rintro ⟨hsampler, hnode, hpath⟩
    exact ⟨⟨hsampler, hnode⟩, hpath⟩

/-- The rules of the sampler of an animation hold if it is valid. -/
theorem AnimationSampler.all_rules_iff {d : Document} {s : AnimationSampler} :
    All (s.rules d) ↔ s.Valid d := by
  simp only [rules, all_append, all_cons, all_nil, all_ifGiven, holds_index, holds_named, and_true]
  constructor
  · rintro ⟨⟨hinput, hinterpolation⟩, houtput⟩
    exact ⟨hinput, hinterpolation, houtput⟩
  · rintro ⟨hinput, hinterpolation, houtput⟩
    exact ⟨⟨hinput, hinterpolation⟩, houtput⟩

/-- The rules of an animation hold if it is valid. -/
theorem Animation.all_rules_iff {d : Document} {a : Animation} : All (a.rules d) ↔ a.Valid d := by
  simp only [rules, all_append, all_cons, all_nil, all_each, holds_nonempty, Channel.all_rules_iff,
    AnimationSampler.all_rules_iff, and_true]
  constructor
  · rintro ⟨⟨⟨hchannel, hsampler⟩, hchannels⟩, hsamplers⟩
    exact ⟨hchannel, hsampler, hchannels, hsamplers⟩
  · rintro ⟨hchannel, hsampler, hchannels, hsamplers⟩
    exact ⟨⟨⟨hchannel, hsampler⟩, hchannels⟩, hsamplers⟩

/-- The rules of a skin hold if it is valid. -/
theorem Skin.all_rules_iff {d : Document} {s : Skin} : All (s.rules d) ↔ s.Valid d := by
  simp only [rules, all_append, all_cons, all_nil, all_ifGiven, all_indices, holds_need,
    holds_index, holds_nonempty, inRange_iff_exists_names, Option.mem_def, lookup?_eq_some_iff,
    and_true]
  constructor
  · rintro ⟨⟨⟨hmatrices, hskeleton⟩, hjoint⟩, hjoints⟩
    refine ⟨fun i hi => ?_, fun i hi => inRange_iff_exists_names.mpr (hskeleton i hi), hjoint,
      hjoints⟩
    obtain ⟨⟨a, ha⟩, hcount⟩ := hmatrices i hi
    exact ⟨a, ha, hcount a ha⟩
  · rintro ⟨hmatrices, hskeleton, hjoint, hjoints⟩
    refine ⟨⟨⟨fun i hi => ?_, fun i hi => inRange_iff_exists_names.mp (hskeleton i hi)⟩, hjoint⟩,
      hjoints⟩
    obtain ⟨a, ha, hcount⟩ := hmatrices i hi
    exact ⟨⟨a, ha⟩, fun b hb => hb.unique ha ▸ hcount⟩

/-! ## Hierarchy -/

/-- The rules of an orthographic projection hold if it is valid. -/
theorem Orthographic.all_rules_iff {o : Orthographic} : All o.rules ↔ o.Valid := by
  simp only [rules, all_cons, all_nil, holds_positive, holds_float, and_true]
  constructor
  · rintro ⟨hxmag, hymag, hzfar⟩
    exact ⟨hxmag, hymag, hzfar⟩
  · rintro ⟨hxmag, hymag, hzfar⟩
    exact ⟨hxmag, hymag, hzfar⟩

/-- The rules of a perspective projection hold if it is valid. -/
theorem Perspective.all_rules_iff {p : Perspective} : All p.rules ↔ p.Valid := by
  simp only [rules, all_append, all_cons, all_nil, all_ifGiven, holds_positive, holds_float,
    and_true]
  constructor
  · rintro ⟨⟨haspect, hyfov, hznear⟩, hzfar⟩
    exact ⟨haspect, hyfov, hznear, hzfar⟩
  · rintro ⟨haspect, hyfov, hznear, hzfar⟩
    exact ⟨⟨haspect, hyfov, hznear⟩, hzfar⟩

/-- The rules for the projection of the kind of a camera, next to one of the other kind. -/
theorem Camera.all_projectionRules_iff {α β : Type} {own other : CameraType} {projection : Option α}
    {second : Option β} {rules : α → List Rule} :
    All (projectionRules own other projection second rules) ↔
      second = none ∧ ∃ p ∈ projection, All (rules p) := by
  simp only [projectionRules, all_append, all_cons, all_nil, all_ifGiven, all_map_within,
    holds_need, Option.isSome_iff_exists, Option.isSome_eq_false_iff, Option.isNone_iff_eq_none,
    and_true]
  constructor
  · rintro ⟨⟨⟨p, hp⟩, hsecond⟩, hrules⟩
    exact ⟨hsecond, p, hp, hrules p hp⟩
  · rintro ⟨hsecond, p, hp, hrules⟩
    refine ⟨⟨⟨p, hp⟩, hsecond⟩, fun q hq => ?_⟩
    obtain rfl := Option.mem_unique hp hq
    exact hrules

/-- The rules of a camera hold if it is valid. -/
theorem Camera.all_rules_iff {c : Camera} : All c.rules ↔ c.Valid := by
  simp only [rules, all_append, all_cons, all_nil, all_ifGiven, holds_named, and_true]
  constructor
  · rintro ⟨htype, hprojection⟩
    refine ⟨htype, fun h => ?_, fun h => ?_⟩
    · have := all_projectionRules_iff.mp (hprojection .orthographic (h ▸ rfl))
      simpa only [Orthographic.all_rules_iff] using this
    · have := all_projectionRules_iff.mp (hprojection .perspective (h ▸ rfl))
      simpa only [Perspective.all_rules_iff] using this
  · rintro ⟨htype, horthographic, hperspective⟩
    -- The rules for the projection are those of the one kind that the name stands for.
    refine ⟨htype, fun t ht => ?_⟩
    have hname := name_of_ofName?_eq_some ht
    cases t with
    | orthographic =>
      refine all_projectionRules_iff.mpr ?_
      simpa only [Orthographic.all_rules_iff] using horthographic hname.symm
    | perspective =>
      refine all_projectionRules_iff.mpr ?_
      simpa only [Perspective.all_rules_iff] using hperspective hname.symm

/-- A transformation is not given in two ways. -/
theorem Node.not_both_iff {n : Node} : ¬ (n.matrix.isSome ∧ n.hasParts) ↔
    n.matrix = none ∨ n.translation = none ∧ n.rotation = none ∧ n.scale = none := by
  simp [hasParts, imp_iff_not_or, and_assoc]

/-- The rules of a node hold if it is valid. -/
theorem Node.all_rules_iff {d : Document} {place : Nat} {n : Node} :
    All (n.rules d place) ↔ n.Valid d place := by
  -- That a node is no child of its own is asked of each entry, whatever its place in the list.
  have hown : (∀ e ∈ n.children.zipIdx, e.1.toInt ≠ place) ↔ ∀ i ∈ n.children, i.toInt ≠ place := by
    conv_rhs => rw [← List.zipIdx_map_fst 0 n.children, List.forall_mem_map]
  simp only [rules, all_append, all_cons, all_nil, all_map, all_ifGiven, all_indices, holds_need,
    holds_index, not_both_iff, hown, and_true]
  constructor
  · rintro ⟨⟨⟨⟨⟨hcamera, hskin⟩, hmesh⟩, htransformation⟩, hchildren⟩, hnot⟩
    exact ⟨hcamera, hskin, hmesh, htransformation, hchildren, hnot⟩
  · rintro ⟨hcamera, hskin, hmesh, htransformation, hchildren, hnot⟩
    exact ⟨⟨⟨⟨⟨hcamera, hskin⟩, hmesh⟩, htransformation⟩, hchildren⟩, hnot⟩

/-- The rules of a scene hold if it is valid. -/
theorem Scene.all_rules_iff {d : Document} {s : Scene} : All (s.rules d) ↔ s.Valid d := by
  rw [rules, all_indices]
  exact ⟨fun h => ⟨h⟩, fun h => h.nodes⟩

/-! ## Geometry -/

/-- The rules of attributes hold if each of them has an accessor. -/
theorem Attributes.all_rules_iff {d : Document} {as : Attributes} :
    All (rules d as) ↔ ∀ e ∈ as, InRange e.2 d.accessors.size := all_map

/-- The rules of a primitive hold if it is valid. -/
theorem Primitive.all_rules_iff {d : Document} {p : Primitive} : All (p.rules d) ↔ p.Valid d := by
  simp only [rules, all_append, all_cons, all_nil, all_ifGiven, all_each, all_map_within,
    Attributes.all_rules_iff, holds_need, holds_index, holds_coded, and_true]
  have hposition : Attributes.position ∈ p.attributes.map Prod.fst ↔
      ∃ i, ("POSITION", i) ∈ p.attributes := by
    rw [List.mem_map, Prod.exists, exists_comm]
    simp only [Attributes.position, exists_eq_right]
  rw [hposition]
  constructor
  · rintro ⟨⟨⟨⟨⟨hpos, hattributes⟩, hindices⟩, hmaterial⟩, hmode⟩, htargets⟩
    exact ⟨hpos, hattributes, hindices, hmaterial, hmode, htargets⟩
  · rintro ⟨hpos, hattributes, hindices, hmaterial, hmode, htargets⟩
    exact ⟨⟨⟨⟨⟨hpos, hattributes⟩, hindices⟩, hmaterial⟩, hmode⟩, htargets⟩

/-- The rules of a mesh hold if it is valid. -/
theorem Mesh.all_rules_iff {d : Document} {m : Mesh} : All (m.rules d) ↔ m.Valid d := by
  simp only [rules, all_append, all_cons, all_nil, all_ifGiven, all_each, holds_need,
    holds_nonempty, Primitive.all_rules_iff, and_true]
  constructor
  · rintro ⟨⟨hsome, hprimitives⟩, hweights⟩
    exact ⟨hsome, hprimitives, fun xs hxs p hp => hweights p hp xs hxs⟩
  · rintro ⟨hsome, hprimitives, hweights⟩
    exact ⟨⟨hsome, hprimitives⟩, fun p hp xs hxs => hweights xs hxs p hp⟩

/-! ## Appearance -/

/-- An image has a place outside of the document if its URI is not empty. -/
theorem Image.isSome_place_iff {i : Image} : i.place.isSome ↔ ∃ s ∈ i.uri, s ≠ "" := by
  rw [place, Option.isSome_filter, Option.any_eq_true_iff_get]
  cases i.uri <;> simp

/-- The rules of an image hold if it is valid. -/
theorem Image.all_rules_iff {d : Document} {i : Image} : All (i.rules d) ↔ i.Valid d := by
  simp only [rules, all_append, all_cons, all_nil, all_ifGiven, holds_need, holds_index,
    holds_named, isSome_place_iff, and_true]
  -- Not both sources and at least one of them is exactly one of them.
  constructor
  · rintro ⟨⟨hboth, hone⟩, hview⟩
    refine ⟨?_, fun v hv => (hview v hv).1.1, fun hne => ?_⟩
    · rw [← Option.not_isSome_iff_eq_none]
      exact ⟨fun h hv => hboth ⟨h, hv⟩, fun h => hone.resolve_right h⟩
    · obtain ⟨v, hv⟩ := Option.ne_none_iff_exists'.mp hne
      obtain ⟨⟨-, hgiven⟩, hname⟩ := hview v hv
      obtain ⟨s, hs⟩ := Option.isSome_iff_exists.mp hgiven
      exact ⟨s, hs, hname s hs⟩
  · rintro ⟨hsource, hview, htype⟩
    refine ⟨⟨?_, ?_⟩, fun v hv => ⟨⟨hview v hv, ?_⟩, fun s hs => ?_⟩⟩
    · rw [hsource, Option.isSome_iff_ne_none]
      tauto
    · rw [hsource, Option.isSome_iff_ne_none]
      tauto
    · obtain ⟨s, hs, -⟩ := htype (Option.ne_none_iff_exists'.mpr ⟨v, hv⟩)
      exact Option.isSome_iff_exists.mpr ⟨s, hs⟩
    · obtain ⟨t, ht, hname⟩ := htype (Option.ne_none_iff_exists'.mpr ⟨v, hv⟩)
      obtain rfl := Option.mem_unique ht hs
      exact hname

/-- The rules of a sampler hold if it is valid. -/
theorem Sampler.all_rules_iff {s : Sampler} : All s.rules ↔ s.Valid := by
  simp only [rules, all_append, all_cons, all_nil, all_ifGiven, holds_codedOrZero, and_true]
  constructor
  · rintro ⟨⟨⟨hmag, hmin⟩, hwrapS⟩, hwrapT⟩
    exact ⟨hmag, hmin, hwrapS, hwrapT⟩
  · rintro ⟨hmag, hmin, hwrapS, hwrapT⟩
    exact ⟨⟨⟨hmag, hmin⟩, hwrapS⟩, hwrapT⟩

/-- The rules of a texture hold if it is valid. -/
theorem Texture.all_rules_iff {d : Document} {t : Texture} : All (t.rules d) ↔ t.Valid d := by
  simp only [rules, all_append, all_cons, all_nil, all_ifGiven, holds_index, and_true]
  exact ⟨fun ⟨hsampler, hsource⟩ => ⟨hsampler, hsource⟩, fun h => ⟨h.sampler, h.source⟩⟩

namespace Material

/-- The rules of a reference to a texture hold if it is valid. -/
theorem all_useRules_iff {d : Document} {sets : Nat} {texture : Int64} {texCoord : Option Int64} :
    All (useRules d sets texture texCoord) ↔ UseValid d sets texture texCoord := by
  simp only [useRules, all_append, all_cons, all_nil, all_ifGiven, holds_need, holds_index,
    holds_nonNegative, and_true]
  exact ⟨fun ⟨hindex, hcoord⟩ => ⟨hindex, hcoord⟩, fun h => ⟨h.index, h.texCoord⟩⟩

/-- The rules of factors hold if all of them are fractions. -/
theorem all_factorRules_iff {n : Nat} {xs : Vector Single n} :
    All (factorRules xs.toList) ↔ ∀ x ∈ xs, IsFraction x := by
  have hall : All (factorRules xs.toList) ↔ ∀ e ∈ xs.toList.zipIdx, IsFraction e.1 := all_map
  rw [hall, ← List.forall_mem_map (f := Prod.fst) (P := IsFraction), List.zipIdx_map_fst]
  simp only [Vector.mem_toList_iff]

/-- The rules of a metallic-roughness model hold if it is valid. -/
theorem all_metallicRoughnessRules_iff {d : Document} {sets : Nat} {m : MetallicRoughness} :
    All (metallicRoughnessRules d sets m) ↔ m.Valid d sets := by
  simp only [metallicRoughnessRules, all_append, all_cons, all_nil, all_ifGiven, all_map_within,
    all_useRules_iff, all_factorRules_iff, holds_unitInterval, and_true]
  constructor
  · rintro ⟨⟨⟨⟨hbase, hbaseTexture⟩, hmetallic⟩, hroughness⟩, htexture⟩
    exact ⟨hbase, hbaseTexture, hmetallic, hroughness, htexture⟩
  · rintro ⟨hbase, hbaseTexture, hmetallic, hroughness, htexture⟩
    exact ⟨⟨⟨⟨hbase, hbaseTexture⟩, hmetallic⟩, hroughness⟩, htexture⟩

/-- What is chosen is what is given and not empty. -/
theorem mem_chosenAlphaMode_iff {m : Material} {s : String} :
    s ∈ m.chosenAlphaMode ↔ s ∈ m.alphaMode ∧ s ≠ "" := by
  simp [chosenAlphaMode]

/-- The rules of a material hold if it is valid. -/
theorem all_rules_iff {d : Document} {sets : Nat} {m : Material} :
    All (m.rules d sets) ↔ m.Valid d sets := by
  simp only [rules, all_append, all_cons, all_nil, all_ifGiven, all_map_within, all_useRules_iff,
    all_factorRules_iff, all_metallicRoughnessRules_iff, holds_need, holds_unitInterval,
    holds_named, holds_float, Option.isSome_iff_exists, ← Option.mem_def, mem_chosenAlphaMode_iff,
    and_true]
  constructor
  · rintro ⟨⟨⟨⟨⟨⟨hroughness, hnormal⟩, hocclusion⟩, hemissive⟩, hfactor⟩, hmode⟩, hcutoff⟩
    refine ⟨hroughness, hnormal, fun t ht => (hocclusion t ht).1, fun t ht => (hocclusion t ht).2,
      hemissive, hfactor, fun s hs => ?_, hcutoff⟩
    exact or_iff_not_imp_left.mpr fun hne => hmode s ⟨hs, hne⟩
  · rintro ⟨hroughness, hnormal, hocclusion, hstrength, hemissive, hfactor, hmode, hcutoff⟩
    refine ⟨⟨⟨⟨⟨⟨hroughness, hnormal⟩, fun t ht => ⟨hocclusion t ht, hstrength t ht⟩⟩, hemissive⟩,
      hfactor⟩, ?_⟩, hcutoff⟩
    rintro s ⟨hs, hne⟩
    exact (hmode s hs).resolve_left hne

end Material

/-! ## Documents -/

namespace Document

/-- The check of the document itself finds nothing if its rules hold. -/
theorem ownCheck_eq_none_iff {rules : List Rule} : ownCheck rules = none ↔ All rules := by
  rw [ownCheck, Option.map_eq_none_iff]
  exact firstFault?_eq_none_iff

/-- The checks of a collection find nothing if the rules of each element hold. -/
theorem elementChecks_eq_none_iff {α : Type} {kind : EntityKind} {xs : Array α}
    (rules : Nat → α → List Rule) :
    (∀ v ∈ elementChecks kind xs rules, v = none) ↔
      ∀ (k : Nat) (x : α), xs[k]? = some x → All (rules k x) := by
  rw [elementChecks, List.forall_mem_map]
  have hcheck : ∀ e : α × Nat, elementCheck kind e.2 (rules e.2 e.1) = none ↔
      All (rules e.2 e.1) := by
    intro e
    rw [elementCheck, Option.map_eq_none_iff]
    exact firstFault?_eq_none_iff
  simp only [hcheck, Prod.forall, List.mk_mem_zipIdx_iff_getElem?, Array.getElem?_toList]
  exact forall_comm

/-- The checks of a collection whose elements are ruled without regard to their places. -/
theorem elementChecks_eq_none_iff_forall_mem {α : Type} {kind : EntityKind} {xs : Array α}
    {rules : α → List Rule} :
    (∀ v ∈ elementChecks kind xs (fun _ => rules), v = none) ↔ ∀ x ∈ xs, All (rules x) := by
  rw [elementChecks_eq_none_iff]
  constructor
  · intro h x hx
    obtain ⟨k, hk⟩ := Array.mem_iff_getElem?.mp hx
    exact h k x hk
  · intro h k x hk
    exact h x (Array.mem_of_getElem? hk)

/-- The rules for a list of names hold if these are distinct. -/
theorem all_distinctRules_iff {field : Field} {names : List String} :
    All (distinctRules field names) ↔ names.Nodup := by
  rw [← forall_markRepeated_iff_nodup]
  exact all_map

/-- The rules of the extensions hold if their lists are valid. -/
theorem all_extensionRules_iff {d : Document} : All d.extensionRules ↔ d.ExtensionsValid := by
  -- The names in use are kept in a set, which has the same elements.
  have hrequired : (∀ e ∈ d.extensionsRequired.zipIdx, e.1 ∈ Std.TreeSet.ofList d.extensionsUsed) ↔
      ∀ s ∈ d.extensionsRequired, s ∈ d.extensionsUsed := by
    conv_rhs => rw [← List.zipIdx_map_fst 0 d.extensionsRequired, List.forall_mem_map]
    simp only [Std.TreeSet.mem_ofList, List.contains_iff_mem]
  simp only [extensionRules, all_append, all_distinctRules_iff, all_map, holds_need, hrequired]
  constructor
  · rintro ⟨⟨hused, hdistinct⟩, hsub⟩
    exact ⟨hused, hdistinct, hsub⟩
  · rintro ⟨hused, hdistinct, hsub⟩
    exact ⟨⟨hused, hdistinct⟩, hsub⟩

/-- The checks of all collections find nothing if all elements are valid. -/
theorem entityChecks_eq_none_iff {c : Config} {d : Document} :
    (∀ v ∈ d.entityChecks c, v = none) ↔
      ((∀ a ∈ d.accessors, a.Valid d) ∧ (∀ a ∈ d.animations, a.Valid d) ∧
        (∀ b ∈ d.buffers, b.Valid) ∧ (∀ v ∈ d.bufferViews, v.Valid d) ∧
        (∀ a ∈ d.cameras, a.Valid) ∧ (∀ i ∈ d.images, i.Valid d) ∧
        (∀ m ∈ d.materials, m.Valid d c.maxTexCoordSets) ∧ (∀ m ∈ d.meshes, m.Valid d) ∧
        (∀ (k : Nat) (n : Node), d.nodes[k]? = some n → n.Valid d k) ∧
        (∀ s ∈ d.samplers, s.Valid) ∧ (∀ s ∈ d.scenes, s.Valid d) ∧ (∀ s ∈ d.skins, s.Valid d) ∧
        ∀ t ∈ d.textures, t.Valid d) := by
  simp only [entityChecks, List.forall_mem_append, elementChecks_eq_none_iff_forall_mem,
    elementChecks_eq_none_iff (Node.rules d), Accessor.all_rules_iff,
    Animation.all_rules_iff, Buffer.all_rules_iff, BufferView.all_rules_iff, Camera.all_rules_iff,
    Image.all_rules_iff, Material.all_rules_iff, Mesh.all_rules_iff, Node.all_rules_iff,
    Sampler.all_rules_iff, Scene.all_rules_iff, Skin.all_rules_iff, Texture.all_rules_iff,
    and_assoc]

/-- All checks find nothing if the document is valid. -/
theorem checks_eq_none_iff {c : Config} {d : Document} :
    (∀ v ∈ d.checks c, v = none) ↔ d.Valid c := by
  have hscene : All d.sceneRules ↔ ∀ i ∈ d.scene, InRange i d.scenes.size := by
    simp only [sceneRules, all_ifGiven, all_cons, all_nil, holds_index, and_true]
  -- The last two checks are only made if they are asked for.
  have hhierarchy : (∀ v ∈ if c.checkHierarchy then [d.graph.violation?] else [], v = none) ↔
      (c.checkHierarchy = true → d.graph.IsForest) := by
    rw [← Graph.violation?_eq_none_iff_isForest]
    split <;> simp_all
  have hextensions : (∀ v ∈ if c.checkExtensions then [ownCheck d.extensionRules] else [],
      v = none) ↔ (c.checkExtensions = true → d.ExtensionsValid) := by
    rw [← all_extensionRules_iff, ← ownCheck_eq_none_iff]
    split <;> simp_all
  simp only [checks, List.forall_mem_append, List.forall_mem_cons, List.not_mem_nil,
    IsEmpty.forall_iff, implies_true, and_true, ownCheck_eq_none_iff, Asset.all_rules_iff, hscene,
    entityChecks_eq_none_iff, hhierarchy, hextensions]
  constructor
  · rintro ⟨⟨⟨⟨hasset, hscene⟩, haccessors, hanimations, hbuffers, hviews, hcameras, himages,
      hmaterials, hmeshes, hnodes, hsamplers, hscenes, hskins, htextures⟩, hhierarchy⟩, hextensions⟩
    exact ⟨hasset, hscene, haccessors, hanimations, hbuffers, hviews, hcameras, himages,
      hmaterials, hmeshes, hnodes, hsamplers, hscenes, hskins, htextures, hhierarchy, hextensions⟩
  · intro h
    exact ⟨⟨⟨⟨h.asset, h.scene⟩, h.accessors, h.animations, h.buffers, h.bufferViews, h.cameras,
      h.images, h.materials, h.meshes, h.nodes, h.samplers, h.scenes, h.skins, h.textures⟩,
      h.hierarchy⟩, h.extensions⟩

/-- A document is accepted, under any choice of what is checked, exactly if it is valid. -/
theorem violation?_eq_none_iff_valid (c : Config) (d : Document) :
    d.violation? c = none ↔ d.Valid c := by
  rw [violation?_eq_none_iff]
  exact checks_eq_none_iff

end Document

end GltfAsset
