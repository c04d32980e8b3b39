import Manifest.Proofs.Naming

/-!
# Records that make no resource

A record is accepted as a resource exactly if its metadata is a record with a name or a name to
generate one from (`Resource.ofRecord_eq_ok_iff`).  One that is refused lacks both, but it is told
so only if the look-up gets as far as a place for a name, which is to say that the metadata is
missing (`ofRecord_of_no_metadata`) or a record (`ofRecord_of_metadata`).  Metadata of any other
shape stop the look-up of the first name, and the record is refused with the fault that the look-up
meets there (`ofRecord_of_misfit`).

The main statement is `ofRecord_accepts_or_refuses`.
-/

namespace Manifest

open Value

namespace Resource

/-- The metadata of a document have an entry that a resource can take its name from. -/
def IsNamed (root : Value) : Prop := ∃ kind members, Identified ⟨root⟩ kind members

section LookUps
variable {root : Value}

theorem ofRecord_of_resolves {named generated : Bool}
    (hn : root.resolves Path.metadataName = .ok named)
    (hg : root.resolves Path.metadataGenerateName = .ok generated) :
    ofRecord root = if named || generated then .ok ⟨root⟩ else .error .missingName := by
  unfold ofRecord
  rw [hn, hg]
  cases named <;> cases generated <;> rfl

theorem ofRecord_of_resolves_error {fault : Fault}
    (hn : root.resolves Path.metadataName = .error fault) : ofRecord root = .error fault := by
  unfold ofRecord
  rw [hn]
  rfl

end LookUps

section Shapes
variable {kind entryKind : RecordKind} {members entries : Fields Value} {metadata : Value}

theorem ofRecord_of_no_metadata (h : (record kind members).member? "metadata" = none) :
    ofRecord (record kind members) = .error .missingName := by
  have hat : (record kind members).at? [] = some (record kind members) := at?_nil _
  have hmissing : ∀ key, (record kind members).resolves ["metadata", key] = .ok false :=
    fun key => resolves_of_missing_key hat (by decide) h [key]
  exact ofRecord_of_resolves (hmissing _) (hmissing _)

theorem ofRecord_of_metadata
    (h : (record kind members).member? "metadata" = some (record entryKind entries)) :
    ofRecord (record kind members) =
      if Fields.contains entries "name" || Fields.contains entries "generateName" then
        .ok ⟨record kind members⟩
      else .error .missingName := by
  have hat : (record kind members).at? Path.metadata = some (record entryKind entries) := by
    rw [Path.metadata, at?_singleton, child?_record_of_key (by decide)]
    exact h
  let r : Resource := ⟨record kind members⟩
  exact ofRecord_of_resolves (resolves_entry (r := r) hat (by decide))
    (resolves_entry (r := r) hat (by decide))

theorem ofRecord_of_misfit {fault : Fault}
    (h : (record kind members).member? "metadata" = some metadata)
    (hm : metadata.misfit "metadata" "name" = some fault) :
    ofRecord (record kind members) = .error fault := by
  have hc : (record kind members).child? "metadata" = some metadata :=
    (child?_record_of_key (by decide)).trans h
  have ho : obstacle "" Path.metadataName (record kind members) = some fault := by
    rw [Path.metadataName, obstacle_of_child? hc, obstacle_of_misfit hm]
  exact ofRecord_of_resolves_error (resolves_of_obstacle _ _ ho)

theorem exists_misfit_of_members?_none (h : metadata.members? = none) :
    ∃ fault, metadata.misfit "metadata" "name" = some fault := by
  cases metadata with
  | record kind members => cases h
  | _ => exact ⟨_, rfl⟩

end Shapes

/-- **Which records are accepted, and how the others are refused.**  A record makes a resource, and
is its document then, exactly if its metadata are a record with a name or a name to generate one
from.  It is refused for want of a name exactly if it has none and its metadata are missing or a
record.  If they are anything else, it is refused with the fault that a name meets at them. -/
theorem ofRecord_accepts_or_refuses (kind : RecordKind) (members : Fields Value) :
    let root := record kind members
    (∀ r, ofRecord root = .ok r ↔ r = ⟨root⟩ ∧ IsNamed root) ∧
      (ofRecord root = .error .missingName ↔
        ¬ IsNamed root ∧ ∀ metadata, root.member? "metadata" = some metadata →
          metadata.members?.isSome = true) ∧
      ∀ metadata, root.member? "metadata" = some metadata → metadata.members? = none →
        ∃ fault, metadata.misfit "metadata" "name" = some fault ∧
          ofRecord root = .error fault := by
  intro root
  have haccepts : ∀ r, ofRecord root = .ok r ↔ r = ⟨root⟩ ∧ IsNamed root :=
    fun r => ofRecord_eq_ok_iff
  have hrefuses : ∀ metadata, root.member? "metadata" = some metadata → metadata.members? = none →
      ∃ fault, metadata.misfit "metadata" "name" = some fault ∧ ofRecord root = .error fault := by
    intro metadata h hm
    obtain ⟨fault, hf⟩ := exists_misfit_of_members?_none hm
    exact ⟨fault, hf, ofRecord_of_misfit h hf⟩
  refine ⟨haccepts, ⟨fun h => ⟨fun hn => ?_, fun metadata hm => ?_⟩, ?_⟩, hrefuses⟩
  · rw [(haccepts _).mpr ⟨rfl, hn⟩] at h
    cases h
  · by_contra hshape
    obtain ⟨fault, hf, he⟩ := hrefuses metadata hm (by simpa using hshape)
    rw [he] at h
    cases h
    -- a misfit is a fault of another kind
    cases isMisfit_of_misfit hf
  · rintro ⟨hn, hshape⟩
    cases hm : root.member? "metadata" with
    | none => exact ofRecord_of_no_metadata hm
    | some metadata =>
      obtain ⟨entries, he⟩ := Option.isSome_iff_exists.mp (hshape metadata hm)
      cases metadata with
      | record entryKind entries =>
        rw [ofRecord_of_metadata hm, if_neg]
        intro hc
        exact hn ((haccepts _).mp ((ofRecord_of_metadata hm).trans (if_pos hc))).2
      | _ => cases he

/-- Metadata without a name, and metadata that cannot have one. -/
theorem ofRecord_accepts_or_refuses_of_shapes :
    let named := object [("metadata", object [("generateName", null)])]
    let nameless := object [("metadata", object [])]
    let listed := object [("metadata", array [object [("name", string "web")]])]
    IsNamed named ∧ ofRecord named = .ok ⟨named⟩ ∧
      ¬ IsNamed nameless ∧ ofRecord nameless = .error .missingName ∧
      ofRecord listed = .error (.missingArrayTraversal "metadata") := by
  intro named nameless listed
  have hnamed : IsNamed named := ⟨.plain, _, rfl, Or.inr rfl⟩
  have hnameless : ¬ IsNamed nameless := by
    rintro ⟨kind, members, hm, hc⟩
    cases hm
    rcases hc with hc | hc <;> cases hc
  have hshape : ∀ metadata, nameless.member? "metadata" = some metadata →
      metadata.members?.isSome = true := by
    rintro metadata hm
    cases hm
    rfl
  obtain ⟨fault, hf, hl⟩ := (ofRecord_accepts_or_refuses .plain _).2.2 _
    (show listed.member? "metadata" = some (array [object [("name", string "web")]]) from rfl) rfl
  cases hf
  exact ⟨hnamed, ((ofRecord_accepts_or_refuses .plain _).1 _).mpr ⟨rfl, hnamed⟩, hnameless,
    (ofRecord_accepts_or_refuses .plain _).2.1.mpr ⟨hnameless, hshape⟩, hl⟩

/-- A record is refused for the shape of its metadata instead of its want of a name. -/
theorem ofRecord_of_text_metadata :
    let root := object [("metadata", string "x")]
    root.isDocument = true ∧ ¬ IsNamed root ∧
      ofRecord root = .error (.notTraversable "metadata is string") ∧
      ofRecord root ≠ .error .missingName := by
  intro root
  have hr : ofRecord root = .error (.notTraversable "metadata is string") := by rfl
  refine ⟨by decide, ?_, hr, ?_⟩
  · rintro ⟨kind, members, hm, -⟩
    cases hm
  · rw [hr]
    intro he
    cases he

end Resource

end Manifest
