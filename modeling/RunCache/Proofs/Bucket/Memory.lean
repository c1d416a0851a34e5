import RunCache.Bucket.Memory
import RunCache.Proofs.Document.Fields

/-! # Listings of objects in memory

    * **`Memory.mem_listing`**: what is listed.
    * **`Memory.listing_sorted`**: in which order.
    * **`Memory.store_list`**: the answer of a store that does not fail. -/

namespace RunCache.Memory

variable {m : Memory} {q : Query} {x : Listed}

/-- Listed are the objects inside the query, with the times of their creation. -/
theorem mem_listing (hsorted : m.objects.Sorted) : x ∈ m.listing q ↔
    q.admits x.name = true ∧ ∃ body, m.objects.get? x.name = some ⟨body, x.created⟩ := by
  unfold listing
  rw [List.mem_map]
  constructor
  · rintro ⟨e, he, rfl⟩
    obtain ⟨he, hadmits⟩ := List.mem_filter.mp he
    exact ⟨hadmits, e.2.body, hsorted.get_of_mem he⟩
  · rintro ⟨hadmits, body, hget⟩
    exact ⟨_, List.mem_filter.mpr ⟨Fields.mem_of_get hget, hadmits⟩, rfl⟩

/-- The listing of a bucket in name order is in name order. -/
theorem listing_sorted (hsorted : m.objects.Sorted) (q : Query) :
    (m.listing q).Pairwise fun a b => a.name < b.name :=
  List.pairwise_map.mpr (hsorted.sublist List.filter_sublist)

/-- Where no listing is made to fail, all of it is handed over. -/
theorem store_list (hbroken : m.brokenAfter = none) (w : World) (q : Query) :
    m.store.list w q =
      { outcome := some (.ok ((m.listing q).map fun x => { item := .ok x })) } := by
  simp [store, items, hbroken, Function.comp_def]

end RunCache.Memory
