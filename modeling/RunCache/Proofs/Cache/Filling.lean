import RunCache.Proofs.Cache.Written
import RunCache.Proofs.Disk.Below

/-! # Filling an empty directory

    Files are written into a directory that is empty at first, each under
    plain names.  If the system takes their paths and none of them lies
    below another one, all of them can be written, and then the directory
    holds them and the directories they lie in.

    * **`Writing.file_of_open`**: one file, where nothing but open
      directories is on the way.
    * **`Disk.Filled`**: a directory that holds some files and nothing else
      (`Wrote.filled`).
    * **`Writing.files_fill`**: all files. -/

namespace RunCache

open Disk (Grows Stands Takes Makes)

variable {d d' : Disk} {root p : Path} {segs init : List String} {name : String} {now : Int}

/-! ## One file -/

namespace Writing

variable {x y : Writing} {bytes : ByteArray}

theorem probe_of_exists {b : Bool} (h : d.exists? p = .ok b) : probe d p = .ok b := by
  rw [probe, h]
  rfl

/-- Where the way is open, the outermost missing directory can be told. -/
theorem outermost_of_open (h : d.Stands root) (ht : Takes root segs)
    (hopen : d.Open (d.place root) segs) (n : Nat) (p : Path) :
    ∃ q, outermost d p (Path.ancestorsWithin n (segs.foldl Path.join root).trimmed) = .ok q := by
  induction segs using List.reverseRecOn generalizing n p with
  | nil =>
    obtain ⟨rest, hrest⟩ := Path.ancestorsWithin_eq_cons n root.trimmed
    obtain ⟨closed, hget⟩ := h.dir
    have hex := h.exists_of_open ht hopen
    rw [List.append_nil, hget] at hex
    have hprobe := probe_of_exists hex
    rw [List.foldl_nil] at hprobe ⊢
    refine ⟨p, ?_⟩
    rw [hrest, outermost, if_neg (by simpa using Path.text_trimmed_ne_empty h.text_ne_empty),
      hprobe]
    rfl
  | append_singleton init name ih =>
    have hname := ht.names name (by simp)
    have hprobe := probe_of_exists (h.exists_of_open ht hopen)
    -- What is above is looked at only where the directory itself is missing.
    have hgo : ∀ above, (∀ p, ∃ q, outermost d p above = .ok q) →
        ∃ q, outermost d p (((init ++ [name]).foldl Path.join root).trimmed :: above) = .ok q := by
      intro above habove
      unfold outermost
      split
      · exact ⟨p, rfl⟩
      · rw [hprobe]
        cases (d.get? (d.place root ++ (init ++ [name]))).isSome with
        | true => exact ⟨p, rfl⟩
        | false => exact habove _
    cases n with
    | zero => exact hgo [] fun p => ⟨p, rfl⟩
    | succ n =>
      have htrim : ((init ++ [name]).foldl Path.join root).trimmed =
          (init ++ [name]).foldl Path.join root := by
        rw [List.foldl_append, List.foldl_cons, List.foldl_nil, Path.trimmed_join hname]
      rw [Path.ancestorsWithin_concat hname, ← htrim]
      exact hgo _ fun p => ih (ht.of_isPrefix h.text_ne_empty (List.prefix_append _ _))
        (hopen.of_isPrefix (List.prefix_append _ _)) n p

theorem plan_of_open (h : x.disk.Stands root) (ht : Takes root segs)
    (hopen : x.disk.Open (x.disk.place root) segs) :
    ∃ y, x.plan (segs.foldl Path.join root).trimmed = .ok y := by
  unfold plan
  rw [probe_of_exists (h.exists_of_open ht hopen)]
  rcases List.eq_nil_or_concat segs with rfl | ⟨init, name, rfl⟩
  · obtain ⟨closed, hget⟩ := h.dir
    rw [List.append_nil, hget]
    exact ⟨x, rfl⟩
  · rw [List.concat_eq_append] at ht hopen ⊢
    have hlen := Path.length_le_parts_trimmed (p := root) ht.names
    rw [List.length_append, List.length_singleton] at hlen
    obtain ⟨n, hn⟩ : ∃ n, ((init ++ [name]).foldl Path.join root).trimmed.parts.length = n + 1 :=
      ⟨_, (Nat.succ_pred_eq_of_pos (by omega)).symm⟩
    have habove := @Path.ancestorsWithin_concat root name init (ht.names name (by simp)) n
    cases (x.disk.get? (x.disk.place root ++ (init ++ [name]))).isSome with
    | true => exact ⟨x, rfl⟩
    | false =>
      obtain ⟨q, hq⟩ := outermost_of_open h (ht.of_isPrefix h.text_ne_empty (List.prefix_append _ _))
        (hopen.of_isPrefix (List.prefix_append _ _)) n ((init ++ [name]).foldl Path.join root).trimmed
      simp only [Path.ancestors, hn, habove, List.tail_cons, hq]
      exact ⟨_, rfl⟩

/-- Where the way is open, a directory below can be made. -/
theorem makeDirs_of_open (h : x.disk.Stands root) (ht : Takes root segs)
    (hopen : x.disk.Open (x.disk.place root) segs) :
    ∃ y, x.makeDirs (segs.foldl Path.join root).trimmed = (.ok (), y) ∧
      y.disk.get? (x.disk.place root ++ segs) = some (.dir false) ∧
      Makes (segs.foldl Path.join root).trimmed.ancestors x.disk y.disk := by
  obtain ⟨y, hplan⟩ := plan_of_open h ht hopen
  have hdisk : y.disk = x.disk := plan_disk hplan
  obtain ⟨d', hchain, hget⟩ := h.makeChain ht hopen (Path.length_le_parts_trimmed ht.names)
  have hmakes := Disk.makeChain_makes x.disk (segs.foldl Path.join root).trimmed.ancestors
  rw [Path.ancestors, hchain] at hmakes
  refine ⟨{ y with disk := d' }, ?_, hget, hmakes⟩
  rw [makeDirs, hplan]
  simp only [hdisk, Disk.makeDirs, Path.ancestors, hchain]
  rfl

/-- A file can be written in a directory that is there, unless a directory is in its place. -/
theorem put_of_dir (h : x.disk.Stands root) (ht : Takes root (init ++ [name]))
    (hdir : x.disk.get? (x.disk.place root ++ init) = some (.dir false))
    (hfile : ∀ closed, x.disk.get? (x.disk.place root ++ (init ++ [name])) ≠ some (.dir closed))
    (now : Int) (bytes : ByteArray) :
    ∃ y, x.put now ((init ++ [name]).foldl Path.join root) bytes = (.ok (), y) := by
  have hslash : ((init ++ [name]).foldl Path.join root).endsWithSlash = false :=
    Path.endsWithSlash_foldl_join ht.names (by simp)
  obtain ⟨d', hw⟩ : ∃ d', x.disk.writeFile now ((init ++ [name]).foldl Path.join root) bytes =
      .ok d' := by
    unfold Disk.writeFile
    cases hget : x.disk.get? (x.disk.place root ++ (init ++ [name])) with
    | none =>
      simp only [h.locate_absent ht hdir hget, hslash, Bool.false_eq_true, if_false, Disk.create,
        hdir]
      exact ⟨_, rfl⟩
    | some e =>
      cases e with
      | file old time =>
        simp only [h.locate_found ht hget, hslash, Bool.false_eq_true, if_false]
        exact ⟨_, rfl⟩
      | dir closed => exact absurd hget (hfile closed)
      | link target => exact absurd (h.tree.noLink _ _ hget) (by simp [Entry.isLink])
  exact ⟨{ x with disk := d' }, by rw [put, hw]⟩

/-- Where the way to a file is open, it can be written. -/
theorem file_of_open {x : Writing} (h : x.disk.Stands root) (ht : Takes root (init ++ [name]))
    (hopen : x.disk.Open (x.disk.place root) init)
    (hfile : ∀ closed, x.disk.get? (x.disk.place root ++ (init ++ [name])) ≠ some (.dir closed))
    (now : Int) (bytes : ByteArray) :
    ∃ y, x.file now ((init ++ [name]).foldl Path.join root) bytes = (.ok (), y) := by
  have hname := ht.names name (by simp)
  have htake := ht.of_isPrefix h.text_ne_empty (List.prefix_append init [name])
  have hparent : ((init ++ [name]).foldl Path.join root).parent? =
      some (init.foldl Path.join root).trimmed := by
    rw [List.foldl_append, List.foldl_cons, List.foldl_nil, Path.parent_join hname]
  obtain ⟨y, hmake, hdir, hmakes⟩ := makeDirs_of_open h htake hopen
  obtain ⟨htree, hgrows⟩ := hmakes.tree h.tree
  have hplace : y.disk.place root = x.disk.place root := Disk.place_congr hgrows.home root
  rw [← hplace] at hdir
  -- No directory has been made in the place of the file, for those made lie above it.
  have hfile' : ∀ closed,
      y.disk.get? (y.disk.place root ++ (init ++ [name])) ≠ some (.dir closed) := by
    intro closed hget
    rw [hplace] at hget
    rcases hgrows.dir_before hget with hold | ⟨⟨q, hq, hloc⟩, hnone⟩
    · exact hfile closed hold
    · obtain ⟨l, hl, hplaceq⟩ := h.place_above htake.names hq (hloc ▸ hnone)
      rw [hplaceq] at hloc
      have hlen := hl.length_le
      rw [← List.append_cancel_left hloc, List.length_append, List.length_singleton] at hlen
      omega
  obtain ⟨z, hput⟩ := put_of_dir (h.grows htree hgrows) ht hdir hfile' now bytes
  refine ⟨z, ?_⟩
  rw [file, hparent]
  simp only [hmake, hput]

end Writing

/-! ## What a directory holds -/

/-- The paths of files below a directory. -/
def targets (root : Path) (files : List (List String × ByteArray)) : List (Path × ByteArray) :=
  files.map fun f => (f.1.foldl Path.join root, f.2)

variable {files done rest : List (List String × ByteArray)}

@[simp] theorem targets_append (root : Path) (files files' : List (List String × ByteArray)) :
    targets root (files ++ files') = targets root files ++ targets root files' :=
  List.map_append

/-- The places of files below a directory are below its place. -/
theorem places_targets (hnames : ∀ f ∈ files, ∀ s ∈ f.1, IsName s) (d : Disk) (root : Path) :
    Writing.places d (targets root files) =
      files.map fun f => (d.place root ++ f.1, f.2) := by
  rw [Writing.places, targets, List.map_map]
  refine List.map_congr_left fun f hf => ?_
  rw [Function.comp_apply, Disk.place_foldl_join (hnames f hf)]

/-- A directory below which some files lie and nothing else but the directories they lie in. -/
structure Disk.Filled (d : Disk) (root : Path) (files : List (List String × ByteArray))
    (now : Int) : Prop where
  stands : d.Stands root
  file : ∀ names bytes, lastAt? files names = some bytes →
    d.get? (d.place root ++ names) = some (.file bytes now)
  other : ∀ names e, names ≠ [] → lastAt? files names = none →
    d.get? (d.place root ++ names) = some e → e = .dir false ∧ ∃ f ∈ files, names <+: f.1

/-- The files that are there are those the directory has been filled with. -/
theorem Disk.Filled.file_iff {names : List String} {bytes : ByteArray}
    (h : d.Filled root files now) :
    (∃ time, d.get? (d.place root ++ names) = some (.file bytes time)) ↔
      lastAt? files names = some bytes := by
  constructor
  · rintro ⟨time, hget⟩
    by_cases hnil : names = []
    · obtain ⟨closed, hdir⟩ := h.stands.dir
      rw [hnil, List.append_nil, hdir] at hget
      cases hget
    · cases hlast : lastAt? files names with
      | some b =>
        rw [h.file names b hlast] at hget
        rw [(Entry.file.inj (Option.some.inj hget)).1]
      | none =>
        obtain ⟨hfile, _⟩ := h.other names _ hnil hlast hget
        cases hfile
  · exact fun hlast => ⟨now, h.file names bytes hlast⟩

/-- A missing directory on the way to a file below a directory lies below that as well. -/
theorem Writing.above_of_dirPlaces {loc : Location} (hroot : d.Stands root)
    (hnames : ∀ f ∈ files, f.1 ≠ [] ∧ ∀ s ∈ f.1, IsName s)
    (hdirs : dirPlaces d (targets root files) loc) (hnone : d.get? loc = none) :
    ∃ f ∈ files, ∃ l, l <+: f.1 ∧ l ≠ f.1 ∧ loc = d.place root ++ l := by
  obtain ⟨g, hg, dir, hparent, q, hq, hloc⟩ := hdirs
  obtain ⟨f, hf, rfl⟩ := List.mem_map.mp hg
  obtain ⟨init, name, hconcat⟩ : ∃ init name, f.1 = init ++ [name] :=
    ⟨_, _, (List.dropLast_append_getLast (hnames f hf).1).symm⟩
  have hfnames := (hnames f hf).2
  rw [hconcat] at hfnames
  rw [hconcat, List.foldl_append, List.foldl_cons, List.foldl_nil,
    Path.parent_join (hfnames name (by simp)), Option.some.injEq] at hparent
  rw [← hparent] at hq
  obtain ⟨l, hl, hplaceq⟩ := hroot.place_above
    (fun s hs => hfnames s (List.mem_append_left _ hs)) hq (hloc ▸ hnone)
  refine ⟨f, hf, l, hconcat ▸ hl.trans (List.prefix_append init [name]), ?_, hloc.trans hplaceq⟩
  rintro rfl
  have hlen := hl.length_le
  rw [hconcat, List.length_append, List.length_singleton] at hlen
  omega

/-- An empty directory holds the files that have been written into it. -/
theorem Writing.Wrote.filled (h : Wrote (targets root files) now d d') (hroot : d.Stands root)
    (hempty : ∀ names, names ≠ [] → d.get? (d.place root ++ names) = none)
    (hnames : ∀ f ∈ files, f.1 ≠ [] ∧ ∀ s ∈ f.1, IsName s) : d'.Filled root files now := by
  have hplace : d'.place root = d.place root := Disk.place_congr h.grows.home root
  have hlast : ∀ names, lastAt? (places d (targets root files)) (d.place root ++ names) =
      lastAt? files names := by
    intro names
    rw [places_targets fun f hf => (hnames f hf).2]
    exact lastAt_map (d.place root ++ ·) (fun _ _ => List.append_cancel_left) files names
  refine ⟨hroot.grows h.tree h.grows, fun names bytes hsome => ?_,
    fun names e hne hnone hget => ?_⟩
  · rw [hplace]
    exact h.written _ _ ((hlast names).trans hsome)
  · rw [hplace] at hget
    rcases h.kept ((hlast names).trans hnone) with hsame | ⟨hdirs, hmissing, hdir⟩
    · rw [hsame, hempty names hne] at hget
      cases hget
    · -- A directory that is new lies above a file.
      rw [hdir] at hget
      obtain ⟨f, hf, l, hl, _, hloc⟩ := above_of_dirPlaces hroot hnames hdirs hmissing
      refine ⟨(Option.some.inj hget).symm, f, hf, ?_⟩
      rwa [List.append_cancel_left hloc]

/-! ## All files -/

/-- Files that fit below a directory: the system takes their paths, and none lies below another. -/
structure FitsBelow (root : Path) (files : List (List String × ByteArray)) : Prop where
  takes : ∀ f ∈ files, f.1 ≠ [] ∧ Takes root f.1
  apart : ∀ f ∈ files, ∀ g ∈ files, f.1 <+: g.1 → f.1 = g.1

theorem FitsBelow.names (h : FitsBelow root files) :
    ∀ f ∈ files, f.1 ≠ [] ∧ ∀ s ∈ f.1, IsName s :=
  fun f hf => ⟨(h.takes f hf).1, (h.takes f hf).2.names⟩

/-- The system takes the paths of all that is there: of the files, and with them of the directories
    above them. -/
theorem Disk.Filled.takes {names : List String} {e : Entry} (h : d.Filled root files now)
    (hfits : FitsBelow root files) (hne : names ≠ [])
    (hget : d.get? (d.place root ++ names) = some e) : Takes root names := by
  cases hlast : lastAt? files names with
  | some bytes => exact (hfits.takes _ (mem_of_lastAt hlast)).2
  | none =>
    obtain ⟨_, f, hf, hpre⟩ := h.other _ _ hne hlast hget
    exact (hfits.takes f hf).2.of_isPrefix h.stands.text_ne_empty hpre

/-- With some of the files written into an open empty directory, more of them can be written. -/
theorem Writing.files_fill {x : Writing} (hfits : FitsBelow root files) (hroot : d.Stands root)
    (hopen : d.get? (d.place root) = some (.dir false))
    (hempty : ∀ names, names ≠ [] → d.get? (d.place root ++ names) = none)
    (hdone : done ⊆ files) (hrest : rest ⊆ files)
    (hwrote : Wrote (targets root done) now d x.disk) :
    ∃ y, x.files now (targets root rest) = (.ok (), y) := by
  induction rest generalizing x done with
  | nil => exact ⟨x, rfl⟩
  | cons f rest ih =>
    have hf : f ∈ files := hrest (by simp)
    have hfilled := hwrote.filled hroot hempty fun g hg => hfits.names g (hdone hg)
    have hplace : x.disk.place root = d.place root := Disk.place_congr hwrote.grows.home root
    obtain ⟨hne, htakes⟩ := hfits.takes f hf
    obtain ⟨init, name, hconcat⟩ : ∃ init name, f.1 = init ++ [name] :=
      ⟨_, _, (List.dropLast_append_getLast hne).symm⟩
    have hapart : ∀ g ∈ done, ∀ l, l <+: f.1 → g.1 = l → l = f.1 := by
      rintro g hg l hl rfl
      exact hfits.apart g (hdone hg) f hf hl
    -- On the way there are only directories: a file there would be one of the others.
    have hway : x.disk.Open (x.disk.place root) init := by
      intro l hl e he
      by_cases hnil : l = []
      · rw [hnil, List.append_nil, hplace, hwrote.grows.dir hopen] at he
        exact (Option.some.inj he).symm
      · cases hlast : lastAt? done l with
        | none => exact (hfilled.other l e hnil hlast he).1
        | some bytes =>
          have hlf := hapart _ (mem_of_lastAt hlast) l
            (hconcat ▸ hl.trans (List.prefix_append init [name])) rfl
          have hlen := hl.length_le
          rw [hlf, hconcat, List.length_append, List.length_singleton] at hlen
          omega
    have hfile : ∀ closed,
        x.disk.get? (x.disk.place root ++ (init ++ [name])) ≠ some (.dir closed) := by
      intro closed hget
      rw [← hconcat] at hget
      cases hlast : lastAt? done f.1 with
      | some bytes =>
        rw [hfilled.file _ _ hlast] at hget
        cases hget
      | none =>
        obtain ⟨_, g, hg, hpre⟩ := hfilled.other _ _ hne hlast hget
        exact lastAt_eq_none_iff.mp hlast g hg (hfits.apart f hf g (hdone hg) hpre).symm
    obtain ⟨y, hy⟩ := file_of_open hfilled.stands (hconcat ▸ htakes) hway hfile now f.2
    rw [← hconcat] at hy
    have hwrote' := hwrote.trans (file_wrote (f := (f.1.foldl Path.join root, f.2))
      hwrote.tree hy)
    obtain ⟨z, hz⟩ := @ih (done ++ [f]) y
      (List.append_subset.mpr ⟨hdone, by simpa using hf⟩)
      (fun g hg => hrest (List.mem_cons_of_mem f hg)) (by simpa [targets] using hwrote')
    refine ⟨z, ?_⟩
    rw [targets, List.map_cons, Writing.files, hy]
    exact hz

end RunCache
