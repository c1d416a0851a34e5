import RunCache.Proofs.Bucket.Mirror
import RunCache.Proofs.Cache.Filling
import RunCache.Proofs.Cache.Place
import RunCache.Proofs.Document.Fields

/-! # A cache as a bucket

    A directory that holds some files and nothing else is listed and read
    as the bucket of these files.

    * **`Folder.body_of_file`**: what an object holds.
    * **`Folder.objectsOf`**, **`Folder.mirrors_of_filled`**: the bucket of
      some files, and the directory that mirrors it.
    * **`Folder.items_of_filled`**: the objects below a job, in the order of
      their names, each once. -/

namespace RunCache.Folder

open Disk (Stands Takes Filled)
open Text (joined segments)
open ObjectName (logsRoot)

variable {d : Disk} {root : Path} {names : List String} {job name : String} {now : Int}
  {files : List (List String × ByteArray)}

/-! ## Bodies -/

/-- An object holds the bytes of its file. -/
theorem body_of_file {bytes : ByteArray} {time : Int} (h : d.Stands root) (ht : Takes root names)
    (hne : names ≠ []) (hget : d.get? (d.place root ++ names) = some (.file bytes time)) :
    body d root (joined names) = .ok bytes := by
  unfold body
  rw [file_joined root ht.names hne]
  simp only [h.readFile_found ht hne hget]

/-! ## Files as objects -/

/-- The objects that some files are, all of one time. Of files under the same names the last one
    counts. -/
def objectsOf (files : List (List String × ByteArray)) (now : Int) : Fields Stored :=
  Fields.ofList (files.map fun f => (joined f.1, ⟨f.2, now⟩))

/-- An object is found under the segments of its name. -/
theorem get_objectsOf (hnames : ∀ f ∈ files, f.1 ≠ [] ∧ ∀ s ∈ f.1, IsName s) :
    (objectsOf files now).get? name =
      (lastAt? files (segments name)).map fun bytes => ⟨bytes, now⟩ := by
  induction files with
  | nil => rfl
  | cons f rest ih =>
    obtain ⟨hne, hf⟩ := hnames f (by simp)
    have hname : joined f.1 = name ↔ f.1 = segments name := by
      constructor
      · rintro rfl
        exact (Text.segments_joined hne fun s hs => (hf s hs).2.2.2).symm
      · intro heq
        rw [heq, Text.joined_segments]
    have hfirst : (Fields.ofList [(joined f.1, (⟨f.2, now⟩ : Stored))]).get? name =
        (if f.1 = segments name then some f.2 else none).map fun bytes => ⟨bytes, now⟩ := by
      rw [Fields.ofList, List.foldl_cons, List.foldl_nil, Fields.get_insert, Fields.get_nil]
      by_cases heq : f.1 = segments name
      · rw [if_pos (hname.mpr heq), if_pos heq, Option.map_some]
      · rw [if_neg (mt hname.mp heq), if_neg heq, Option.map_none]
    have hrest := ih fun g hg => hnames g (List.mem_cons_of_mem f hg)
    rw [objectsOf] at hrest
    rw [objectsOf, List.map_cons, ← List.singleton_append, Fields.get_ofList_append, hrest, hfirst,
      lastAt?, Option.map_or]

/-- A directory that holds some files and nothing else mirrors the bucket of these files. -/
theorem mirrors_of_filled (h : d.Filled root files now) (hfits : FitsBelow root files) :
    Mirrors d root (d.place root) (objectsOf files now) := by
  have hleads : d.LeadsTo root (d.place root) := .of_isTree h.stands.tree h.stands.found
  refine ⟨hleads, fun rel e hget s hs => ?_, fun rel e hget => ?_, fun name bytes time => ?_⟩
  · exact (h.takes hfits (List.ne_nil_of_mem hs) hget).names s hs
  · by_cases hnil : rel = []
    · rw [hnil, List.foldl_nil]
      exact hleads.taken
    · exact (h.takes hfits hnil hget).accepted
  · rw [get_objectsOf hfits.names]
    constructor
    · intro hget
      have hlast := h.file_iff.mp ⟨time, hget⟩
      -- All files are of one time.
      rw [h.file _ _ hlast, Option.some_inj, Entry.file.injEq] at hget
      rw [hlast, Option.map_some, hget.2]
    · intro hobject
      obtain ⟨bytes', hlast, hstored⟩ := Option.map_eq_some_iff.mp hobject
      obtain ⟨rfl, rfl⟩ := Stored.mk.inj hstored
      exact h.file _ _ hlast

/-! ## Listings -/

theorem segments_ofJob (hjob : IsName job) : segments (ObjectName.ofJob job) = [logsRoot, job, ""] := by
  have htext : ObjectName.ofJob job = logsRoot ++ "/" ++ job ++ "/" ++ "" := by
    simp [ObjectName.ofJob]
  rw [htext, Text.segments_append_slash, Text.segments_append_slash,
    Text.segments_of_no_slash hjob.2.2.2]
  rfl

/-- The name of an object below a job begins as the query for the job asks. -/
theorem admits_joined {rel : List String} (hne : rel ≠ []) :
    Query.admits ⟨ObjectName.ofJob job, none⟩ (joined (logsRoot :: job :: rel)) = true := by
  have htext : joined (logsRoot :: job :: rel) = ObjectName.ofJob job ++ joined rel := by
    rw [joined, String.intercalate_cons_of_ne_nil (by simp), String.intercalate_cons_of_ne_nil hne,
      ObjectName.ofJob, joined]
    simp [String.append_assoc]
  rw [Query.admits, htext, Text.startsWith, String.toList_append]
  simp [List.isPrefixOf_iff_prefix]

/-- A directory that holds some files and nothing else is listed as the bucket of these files: the
    objects below a job, each once, in the order of their names. -/
theorem items_of_filled (h : d.Filled root files now) (hfits : FitsBelow root files)
    (hjob : IsName job)
    (hbelow : ∀ f ∈ files, f.1.head? = some logsRoot → ∃ rel, rel ≠ [] ∧ f.1 = logsRoot :: job :: rel) :
    ∃ xs : List Listed, items d root ⟨ObjectName.ofJob job, none⟩ = xs.map .ok ∧
      (xs.Pairwise fun a b => a.name < b.name) ∧
      ∀ x, x ∈ xs ↔ ∃ rel bytes, lastAt? files (logsRoot :: job :: rel) = some bytes ∧
        x = ⟨joined (logsRoot :: job :: rel), now⟩ := by
  -- The listing is that of a mirror, in which a name below the job is that of a file of the job.
  have hmirrors := mirrors_of_filled h hfits
  have hsegs := segments_ofJob hjob
  have hdots : ∀ s ∈ segments (ObjectName.ofJob job), s ≠ "." ∧ s ≠ ".." := by
    rw [hsegs]
    simp [hjob.2.1, hjob.2.2.1, CachePath.isName_logsRoot.2.1, CachePath.isName_logsRoot.2.2.1]
  have hfull : "" ∉ (segments (ObjectName.ofJob job)).dropLast := by
    rw [hsegs]
    simp [Ne.symm hjob.1, Ne.symm CachePath.isName_logsRoot.1]
  have hhead : (ObjectName.ofJob job).toList.head? ≠ some '/' := by
    simp [ObjectName.ofJob, logsRoot]
  obtain ⟨xs, hitems, hxs, hmem⟩ := @Mirrors.exists_items _ _ _ _ ⟨ObjectName.ofJob job, none⟩
    hmirrors hhead hdots (hmirrors.opens hdots hfull)
  refine ⟨xs, hitems, hxs, fun x => ?_⟩
  rw [hmem, get_objectsOf hfits.names]
  constructor
  · rintro ⟨hadmits, bytes, hobject⟩
    obtain ⟨bytes', hlast, hstored⟩ := Option.map_eq_some_iff.mp hobject
    obtain ⟨rel, _, hname⟩ := segments_of_admits hadmits
    have hname : segments x.name = logsRoot :: job :: rel := by
      rw [hname, hsegs]
      rfl
    rw [hname] at hlast
    refine ⟨rel, bytes', hlast, ?_⟩
    rw [← hname, Text.joined_segments, (Stored.mk.inj hstored).2]
  · rintro ⟨rel, bytes, hlast, rfl⟩
    have hfile := mem_of_lastAt hlast
    obtain ⟨rel', hne, heq⟩ := hbelow _ hfile rfl
    obtain rfl : rel = rel' := (List.cons.inj (List.cons.inj heq).2).2
    have hname := Text.segments_joined (hfits.names _ hfile).1
      fun s hs => ((hfits.names _ hfile).2 s hs).2.2.2
    exact ⟨admits_joined hne, bytes, by rw [hname, hlast, Option.map_some]⟩

end RunCache.Folder
