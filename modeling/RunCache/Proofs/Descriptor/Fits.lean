import RunCache.Descriptor.Json
import RunCache.Descriptor.Yaml
import RunCache.Proofs.Json.Bounds
import RunCache.Proofs.Yaml.Values

/-! # Descriptors as reading gives them

    A field is kept in its place by its key, mappings are in key order,
    and untyped values are no deeper than may be read again.

    * **`Metadata.Fits`**, **`Descriptor.Fits`**: what a descriptor that
      was read satisfies.
    * **`Yaml.fits_readDescriptor`**, **`Json.fits_readDescriptor`**: both
      notations give such descriptors. -/

namespace RunCache

/-- Metadata that can be read from what is written for it. -/
structure Metadata.Fits (m : Metadata) : Prop where
  labels : Fields.Sorted m.labels
  annotations : Fields.Sorted m.annotations
  extra : Fields.Sorted m.extra
  keys : ∀ e ∈ m.extra, MetadataField.ofKey e.1 = .other
  values : ∀ e ∈ m.extra, e.2.Fits (Yaml.maxDepth - 2)

/-- A descriptor that can be read from what is written for it. -/
structure Descriptor.Fits (d : Descriptor) : Prop where
  metadata : d.metadata.Fits
  rest : Fields.Sorted d.rest
  keys : ∀ e ∈ d.rest, TopField.ofKey e.1 = .other
  values : ∀ e ∈ d.rest, e.2.Fits (Yaml.maxDepth - 1)

variable {key : String} {v : Value}

theorem Metadata.fits_empty : Metadata.Fits {} :=
  ⟨Fields.sorted_nil, Fields.sorted_nil, Fields.sorted_nil, nofun, nofun⟩

theorem Descriptor.fits_empty : Descriptor.Fits {} :=
  ⟨Metadata.fits_empty, Fields.sorted_nil, nofun, nofun⟩

/-- An untyped entry of the metadata is kept. -/
theorem Metadata.Fits.insert {m : Metadata} (h : m.Fits) (hkey : MetadataField.ofKey key = .other)
    (hv : v.Fits (Yaml.maxDepth - 2)) : Metadata.Fits { m with extra := m.extra.insert key v } where
  labels := h.labels
  annotations := h.annotations
  extra := h.extra.insert key v
  keys := fun _ he => (Fields.mem_insert he).elim (fun heq => heq ▸ hkey) (h.keys _)
  values := fun _ he => (Fields.mem_insert he).elim (fun heq => heq ▸ hv) (h.values _)

/-- An untyped entry is kept. -/
theorem Descriptor.Fits.insert {d : Descriptor} (h : d.Fits) (hkey : TopField.ofKey key = .other)
    (hv : v.Fits (Yaml.maxDepth - 1)) : Descriptor.Fits { d with rest := d.rest.insert key v } where
  metadata := h.metadata
  rest := h.rest.insert key v
  keys := fun _ he => (Fields.mem_insert he).elim (fun heq => heq ▸ hkey) (h.keys _)
  values := fun _ he => (Fields.mem_insert he).elim (fun heq => heq ▸ hv) (h.values _)

/-! ## Reading YAML -/

namespace Yaml

variable {doc : Document} {n : Node} {budget budget' : Nat}

theorem of_into_ok {α δ : Type} {r : Reading α} {f : α → δ} {x : δ}
    (h : Reading.into r f budget = .ok (x, budget')) : ∃ a, r budget = .ok (a, budget') ∧ f a = x := by
  obtain ⟨⟨a, _⟩, ha, heq⟩ := of_map_ok h
  cases heq
  exact ⟨a, ha, rfl⟩

/-- What every entry preserves holds of the draft that is left. -/
theorem takeFields_preserves {δ : Type} {add : δ → String → Node → Reading δ} {P : δ → Prop}
    (hadd : ∀ {draft key n budget draft' budget'}, P draft →
      add draft key n budget = .ok (draft', budget') → P draft')
    {ns : List (Node × Node)} {draft draft' : δ} (hdraft : P draft)
    (h : takeFields doc add draft ns budget = .ok (draft', budget')) : P draft' := by
  induction ns generalizing draft budget with
  | nil =>
    cases h
    exact hdraft
  | cons n ns ih =>
    simp only [takeFields] at h
    split at h
    · cases h
    · split at h
      · cases h
      · next hentry => exact ih (hadd hdraft hentry) h

theorem sorted_textsOf {fields : Fields String} (h : textsOf doc n budget = .ok (fields, budget')) :
    Fields.Sorted fields := by
  unfold textsOf at h
  split at h
  · cases h
  · obtain ⟨⟨entries, _⟩, _, heq⟩ := of_map_ok h
    cases heq
    exact Fields.sorted_ofList entries

theorem fits_addMetadata {draft draft' : MetadataDraft} (hdraft : draft.value.Fits)
    (h : addMetadata doc draft key n budget = .ok (draft', budget')) : draft'.value.Fits := by
  unfold addMetadata at h
  generalize hkey : MetadataField.ofKey key = field at h
  split at h
  · cases h
  · cases field with
    | name | space =>
      obtain ⟨_, _, rfl⟩ := of_into_ok h
      exact { hdraft with }
    | labels =>
      obtain ⟨_, hlabels, rfl⟩ := of_into_ok h
      exact { hdraft with labels := sorted_textsOf hlabels }
    | annotations =>
      obtain ⟨_, hannotations, rfl⟩ := of_into_ok h
      exact { hdraft with annotations := sorted_textsOf hannotations }
    | managed =>
      obtain ⟨_, _, rfl⟩ := of_into_ok h
      exact hdraft
    | other =>
      obtain ⟨_, hv, rfl⟩ := of_into_ok h
      exact hdraft.insert hkey (fits_value hv)

theorem fits_metadataOf {m : Metadata} (h : metadataOf doc n budget = .ok (m, budget')) : m.Fits := by
  unfold metadataOf at h
  split at h
  · cases h
  · obtain ⟨⟨draft, _⟩, hfields, heq⟩ := of_map_ok h
    cases heq
    exact takeFields_preserves (P := fun draft => draft.value.Fits) fits_addMetadata
      Metadata.fits_empty hfields

theorem fits_addTop {draft draft' : Draft} (hdraft : draft.value.Fits)
    (h : addTop doc draft key n budget = .ok (draft', budget')) : draft'.value.Fits := by
  unfold addTop at h
  generalize hkey : TopField.ofKey key = field at h
  split at h
  · cases h
  · cases field with
    | apiVersion | kind =>
      obtain ⟨_, _, rfl⟩ := of_into_ok h
      exact { hdraft with }
    | metadata =>
      obtain ⟨_, hmetadata, rfl⟩ := of_into_ok h
      exact { hdraft with metadata := fits_metadataOf hmetadata }
    | other =>
      obtain ⟨_, hv, rfl⟩ := of_into_ok h
      exact hdraft.insert hkey (fits_value hv)

/-- A descriptor read from YAML fits. -/
theorem fits_readDescriptor {bytes : ByteArray} {d : Descriptor}
    (h : readDescriptor bytes = .ok d) : d.Fits := by
  unfold readDescriptor at h
  split at h
  · cases h
  · unfold Document.descriptor at h
    split at h
    · cases h
      exact Descriptor.fits_empty
    · split at h
      · cases h
      · obtain ⟨⟨draft, _⟩, hfields, rfl⟩ := of_map_ok h
        exact takeFields_preserves (P := fun draft => draft.value.Fits) fits_addTop
          Descriptor.fits_empty hfields

end Yaml

/-! ## Reading JSON -/

namespace Json

variable {t : Tree} {depth : Nat} {stop : Option Fault}

/-- What every entry preserves holds of the draft that is left. -/
theorem takeFields_preserves {δ : Type} {add : δ → String → Tree → Except Complaint δ} {P : δ → Prop}
    {fields : List (String × Tree)}
    (hadd : ∀ e ∈ fields, ∀ {draft draft'}, P draft → add draft e.1 e.2 = .ok draft' → P draft')
    {draft draft' : δ} (hdraft : P draft) (h : takeFields add draft fields stop = .ok draft') :
    P draft' := by
  induction fields generalizing draft with
  | nil =>
    cases stop with
    | none =>
      cases h
      exact hdraft
    | some e => cases h
  | cons e fields ih =>
    obtain ⟨key, t⟩ := e
    rw [takeFields] at h
    split at h
    · cases h
    · next hentry =>
      exact ih (fun e he => hadd e (List.mem_cons_of_mem _ he))
        (hadd (key, t) (by simp) hdraft hentry) h

theorem sorted_textsOf {fields : Fields String} (h : textsOf t = .ok fields) : fields.Sorted := by
  unfold textsOf at h
  split at h
  · refine takeFields_preserves (P := Fields.Sorted) (fun e _ => ?_) Fields.sorted_nil h
    intro draft draft' hdraft hentry
    obtain ⟨s, _, rfl⟩ := of_map_ok hentry
    exact hdraft.insert e.1 s
  · cases h

theorem fits_valueOf (ht : t.Within depth) (h : valueOf t = .ok v) : v.Fits depth :=
  ht.fits v (of_mapError_ok h)

theorem fits_addMetadata {draft draft' : MetadataDraft} (ht : t.Within (maxDepth - 3))
    (hdraft : draft.value.Fits) (h : addMetadata draft key t = .ok draft') : draft'.value.Fits := by
  unfold addMetadata at h
  generalize hkey : MetadataField.ofKey key = field at h
  dsimp only at h
  split at h
  · cases h
  · cases field with
    | name | space =>
      obtain ⟨_, _, rfl⟩ := of_map_ok h
      exact { hdraft with }
    | labels =>
      obtain ⟨_, hlabels, rfl⟩ := of_map_ok h
      exact { hdraft with labels := sorted_textsOf hlabels }
    | annotations =>
      obtain ⟨_, hannotations, rfl⟩ := of_map_ok h
      exact { hdraft with annotations := sorted_textsOf hannotations }
    | managed =>
      obtain ⟨_, _, rfl⟩ := of_map_ok h
      exact hdraft
    | other =>
      obtain ⟨_, hv, rfl⟩ := of_map_ok h
      exact hdraft.insert hkey ((fits_valueOf ht hv).mono (by decide))

theorem fits_metadataOf {m : Metadata} (ht : t.Within (maxDepth - 2)) (h : metadataOf t = .ok m) :
    m.Fits := by
  unfold metadataOf at h
  split at h
  · obtain ⟨draft, hfields, rfl⟩ := of_map_ok h
    cases ht with
    | dict _ hwithin =>
      exact takeFields_preserves (P := fun draft => draft.value.Fits)
        (fun e he => fits_addMetadata (hwithin e he)) Metadata.fits_empty hfields
  · cases h

theorem fits_addTop {draft draft' : Draft} (ht : t.Within (maxDepth - 2))
    (hdraft : draft.value.Fits) (h : addTop draft key t = .ok draft') : draft'.value.Fits := by
  unfold addTop at h
  generalize hkey : TopField.ofKey key = field at h
  dsimp only at h
  split at h
  · cases h
  · cases field with
    | apiVersion | kind =>
      obtain ⟨_, _, rfl⟩ := of_map_ok h
      exact { hdraft with }
    | metadata =>
      obtain ⟨_, hmetadata, rfl⟩ := of_map_ok h
      exact { hdraft with metadata := fits_metadataOf ht hmetadata }
    | other =>
      obtain ⟨_, hv, rfl⟩ := of_map_ok h
      exact hdraft.insert hkey ((fits_valueOf ht hv).mono (by decide))

/-- A descriptor read from JSON fits. -/
theorem fits_readDescriptor {bytes : List UInt8} {d : Descriptor}
    (h : readDescriptor bytes = .ok d) : d.Fits := by
  have ht := within_read bytes
  unfold readDescriptor at h
  generalize read bytes = result at h ht
  obtain ⟨tree, trailing⟩ := result
  cases tree with
  | dict fields stop =>
    cases ht with
    | dict _ hwithin =>
      simp only at h
      split at h
      · cases h
      · next draft hfields =>
        split at h
        · cases h
        · cases h
          exact takeFields_preserves (P := fun draft => draft.value.Fits)
            (fun e he => fits_addTop (hwithin e he)) Descriptor.fits_empty hfields
  | _ => cases h

end Json

end RunCache
