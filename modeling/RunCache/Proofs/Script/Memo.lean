import RunCache.Proofs.Cache.Contents
import RunCache.Proofs.Script.Cancelled

/-! # What a run remembers has been read once

    A run of a bucket remembers what it has read.  Whatever operations it
    goes through, and whatever happens to the bucket and the signal
    meanwhile, it takes up at most one read of each path.

    * **`Moment.taken`**: the read that has got its bytes in a moment.
    * **`Run.TakesUp`**: a run remembers what it did and some reads more.
    * **`Run.writeScript_takesUp`**: what is read for a write is taken up.
    * **`Run.Life`**: the operations of a run, one after the other.
    * **`Run.memo_written_once`**: what a run remembers after any of them. -/

namespace RunCache

/-! ## Reads in a history -/

/-- The read that has got its bytes in a moment. -/
def Moment.taken : Moment → List (String × ByteArray)
  | passes (.read name) (.ok bytes) => [(name, bytes)]
  | _ => []

namespace Run

variable {r r' r'' : Run} {reads reads' : List (String × ByteArray)}

/-! ## Taking up reads -/

/-- A later state of a run of a bucket, which remembers what it did before and some reads more, each
    of a path that it did not remember. -/
structure TakesUp (r : Run) (reads : List (String × ByteArray)) (r' : Run) : Prop where
  bucket : ∃ memo, r'.origin = .bucket memo
  memo : ∀ path bytes, r'.memo.get? path = some bytes ↔
    r.memo.get? path = some bytes ∨ (path, bytes) ∈ reads
  once : (reads.map Prod.fst).Nodup
  fresh : ∀ e ∈ reads, r.memo.get? e.1 = none
  named : ∀ e ∈ reads, e.1 ≠ ""

namespace TakesUp

theorem refl {memo : Fields ByteArray} (hr : r.origin = .bucket memo) : TakesUp r [] r :=
  ⟨⟨memo, hr⟩, by simp, List.nodup_nil, by simp, by simp⟩

theorem trans (h : TakesUp r reads r') (h' : TakesUp r' reads' r'') :
    TakesUp r (reads ++ reads') r'' := by
  refine ⟨h'.bucket, ?_, ?_, ?_, ?_⟩
  · intro path bytes
    rw [h'.memo, h.memo, List.mem_append, or_assoc]
  · rw [List.map_append, List.nodup_append]
    refine ⟨h.once, h'.once, ?_⟩
    -- What has been read before is remembered, so it is not fresh.
    intro path hpath path' hpath' heq
    obtain ⟨⟨_, bytes⟩, he, rfl⟩ := List.mem_map.mp hpath
    obtain ⟨e, he', rfl⟩ := List.mem_map.mp hpath'
    have hnone := h'.fresh e he'
    rw [← heq, (h.memo _ bytes).mpr (.inr he)] at hnone
    cases hnone
  · intro e he
    rcases List.mem_append.mp he with he | he
    · exact h.fresh e he
    · have hnone := h'.fresh e he
      cases hget : r.memo.get? e.1 with
      | none => rfl
      | some bytes =>
        rw [(h.memo _ _).mpr (.inl hget)] at hnone
        cases hnone
  · intro e he
    rcases List.mem_append.mp he with he | he
    · exact h.named e he
    · exact h'.named e he

/-- The read of a path that is not remembered is taken up. -/
theorem read {memo : Fields ByteArray} {path : String} (hr : r.origin = .bucket memo)
    (hpath : path ≠ "") (hget : memo.get? path = none) (bytes : ByteArray) :
    TakesUp r [(path, bytes)] { r with origin := .bucket (memo.insert path bytes) } := by
  have hmemo : r.memo = memo := by rw [Run.memo, hr]
  refine ⟨⟨_, rfl⟩, ?_, by simp, ?_, ?_⟩
  · intro key b
    show (memo.insert path bytes).get? key = some b ↔ _
    rw [Fields.get_insert, hmemo]
    by_cases hkey : path = key
    · subst hkey
      rw [if_pos rfl, hget]
      simp [eq_comm]
    · rw [if_neg hkey]
      simp [Ne.symm hkey]
  · intro e he
    rw [List.mem_singleton.mp he, hmemo]
    exact hget
  · intro e he
    rw [List.mem_singleton.mp he]
    exact hpath

/-- A script that is done takes up nothing more. -/
theorem after {α : Type} {a b : α} {w w' : World} {history : List Moment}
    (h : TakesUp r reads r')
    (hdone : (Script.done (a, r')).Runs w history (b, r'') w') :
    TakesUp r (reads ++ history.flatMap Moment.taken) r'' := by
  obtain ⟨heq, hlater⟩ := hdone
  rw [hlater.flatMap_eq_nil rfl, List.append_nil, (Prod.mk.inj heq).2]
  exact h

end TakesUp

variable {memo : Fields ByteArray} {w w' : World} {history : List Moment} {path : String}

/-- Reading a path takes up at most that path, and only bytes that have come. -/
theorem contentScript_takesUp {a : Except Error ByteArray} (hr : r.origin = .bucket memo)
    (h : (r.contentScript path).Runs w history (a, r') w') :
    TakesUp r (history.flatMap Moment.taken) r' := by
  have hself : TakesUp r [] r := .refl hr
  unfold contentScript at h
  by_cases hpath : path.isEmpty = true
  · rw [if_pos hpath] at h
    exact hself.after h
  · rw [if_neg hpath, hr] at h
    cases hget : memo.get? path with
    | some bytes =>
      simp only [hget] at h
      exact hself.after h
    | none =>
      simp only [hget] at h
      obtain ⟨before, w₁, m, answer, w₂, after, rfl, hbefore, hpass, hafter⟩ := h
      rw [List.flatMap_append, List.flatMap_cons, hbefore.flatMap_eq_nil rfl, List.nil_append]
      cases hpass with
      | cuts => exact hself.after hafter
      | refuses => exact hself.after hafter
      | passes =>
        cases answer with
        | error e => exact hself.after hafter
        | ok bytes =>
          -- The bytes have come, and the path was not remembered.
          exact (TakesUp.read hr (by simpa using hpath) hget bytes).after hafter

theorem descriptorScript_takesUp {a : Except Error Descriptor} (hr : r.origin = .bucket memo)
    (h : r.descriptorScript.Runs w history (a, r') w') :
    TakesUp r (history.flatMap Moment.taken) r' := by
  unfold descriptorScript at h
  split at h
  · exact (TakesUp.refl hr).after h
  · obtain ⟨_, ⟨result, r₁⟩, _, _, rfl, hcontent, hrest⟩ := h.of_bind
    have htaken := contentScript_takesUp hr hcontent
    rw [List.flatMap_append]
    cases result with
    | error e => exact htaken.after hrest
    | ok bytes => exact htaken.after hrest

theorem sweepScript_takesUp {paths : List String} {failures : Failures}
    {contents : Fields ByteArray} {a : Except Error (Fields ByteArray)}
    (hr : r.origin = .bucket memo)
    (h : (sweepScript paths failures contents r).Runs w history (a, r') w') :
    TakesUp r (history.flatMap Moment.taken) r' := by
  -- Each path is read by the run that the paths before it have left.
  induction paths generalizing failures contents r w history memo with
  | nil => exact (TakesUp.refl hr).after h
  | cons path rest ih =>
    obtain ⟨_, ⟨result, r₁⟩, _, _, rfl, hcontent, hrest⟩ := h.of_bind
    have htaken := contentScript_takesUp hr hcontent
    obtain ⟨memo₁, hr₁⟩ := htaken.bucket
    rw [List.flatMap_append]
    cases result with
    | ok bytes => exact htaken.trans (ih hr₁ hrest)
    | error e =>
      cases e with
      | cancelled => exact htaken.after hrest
      | _ => exact htaken.trans (ih hr₁ hrest)

theorem contentsScript_takesUp {a : Except Error (Fields ByteArray)}
    (hr : r.origin = .bucket memo) (h : r.contentsScript.Runs w history (a, r') w') :
    TakesUp r (history.flatMap Moment.taken) r' := by
  unfold contentsScript at h
  split at h
  · exact (TakesUp.refl hr).after h
  · exact sweepScript_takesUp hr h

/-- What is read for a write is taken up, whether anything is written or not. -/
theorem writeScript_takesUp {root : Path} {a : Except Error Written} (hr : r.origin = .bucket memo)
    (h : (r.writeScript root).Runs w history (a, r') w') :
    TakesUp r (history.flatMap Moment.taken) r' := by
  obtain ⟨_, ⟨descriptor, r₁⟩, _, _, rfl, hdesc, hrest⟩ := h.of_bind
  have htaken := descriptorScript_takesUp hr hdesc
  obtain ⟨memo₁, hr₁⟩ := htaken.bucket
  rw [List.flatMap_append]
  cases descriptor with
  | error e => exact htaken.after hrest
  | ok d =>
    obtain ⟨_, ⟨contents, r₂⟩, _, _, rfl, hcont, hrest⟩ := hrest.of_bind
    have htaken' := contentsScript_takesUp hr₁ hcont
    rw [List.flatMap_append, ← List.append_assoc]
    cases contents with
    | error e => exact (htaken.trans htaken').after hrest
    | ok contents =>
      obtain ⟨_, result, _, _, rfl, hwrite, hrest⟩ := hrest.of_bind
      -- Writing the files reads nothing.
      have hnothing : ∀ {history : List Moment} {w w' : World} {result : Except Error Written},
          (r₂.writeContentsScript root d contents).Runs w history result w' →
          history.flatMap Moment.taken = [] := by
        intro history w w' result hwrite
        unfold writeContentsScript at hwrite
        split at hwrite
        · exact hwrite.2.flatMap_eq_nil rfl
        · obtain ⟨before, written, _, after, rfl, hfiles, hdone⟩ := hwrite.of_bind
          obtain ⟨start, _, late, rfl, hstart, hlate⟩ := hfiles
          rw [List.flatMap_append, List.flatMap_append, hstart.flatMap_eq_nil rfl,
            hlate.2.flatMap_eq_nil rfl]
          cases written with
          | error e => exact hdone.2.flatMap_eq_nil rfl
          | ok _ => exact hdone.2.flatMap_eq_nil rfl
      rw [List.flatMap_append, hnothing hwrite, List.nil_append]
      exact (htaken.trans htaken').after hrest

/-! ## The life of a run -/

/-- The operations of a run. -/
inductive Op where
  | content (path : String)
  | descriptor
  | contents
  | write (root : Path)
  | withDescriptor (path : String)
  | withResult (path : String)

/-- The run after an operation, and the world. -/
def Op.perform (store : Store) (r : Run) (w : World) : Op → Run × World
  | content path => (r.content store path w).2
  | descriptor => (r.descriptor store w).2
  | contents => (r.contents store w).2
  | write root => (r.write store root w).2
  | withDescriptor path => (r.withDescriptor path, w)
  | withResult path => (r.withResult path, w)

/-- The script of an operation. -/
def Op.script (r : Run) : Op → Script Run
  | content path => (r.contentScript path).bind fun a => .done a.2
  | descriptor => r.descriptorScript.bind fun a => .done a.2
  | contents => r.contentsScript.bind fun a => .done a.2
  | write root => (r.writeScript root).bind fun a => .done a.2
  | withDescriptor path => .done (r.withDescriptor path)
  | withResult path => .done (r.withResult path)

/-- With a store the script does what the operation does. -/
theorem Op.script_run (store : Store) (r : Run) (op : Op) (w : World) :
    (op.script r).run store w = op.perform store r w := by
  cases op with
  | content path =>
    rw [Op.script, Script.run_bind, contentScript_run]
    rfl
  | descriptor =>
    rw [Op.script, Script.run_bind, descriptorScript_run]
    rfl
  | contents =>
    rw [Op.script, Script.run_bind, contentsScript_run]
    rfl
  | write root =>
    rw [Op.script, Script.run_bind, writeScript_run]
    rfl
  | withDescriptor path => rfl
  | withResult path => rfl

/-- The operations of a run one after the other, and what happened meanwhile. Each may find the
    world in any state, with any objects in the bucket, and the signal may fire at any moment. -/
inductive Life : Run → List Moment → Run → Prop
  | new (r : Run) : Life r [] r
  | next {r₀ r r' : Run} {history history' : List Moment} {w w' : World} (op : Op)
      (h : Life r₀ history r) (hop : (op.script r).Runs w history' r' w') :
      Life r₀ (history ++ history') r'

/-- A script of which only the run is kept has taken up what it has. -/
theorem takesUp_of_bind {α : Type} {s : Script (α × Run)}
    (hs : ∀ {before : List Moment} {a : α} {r₁ : Run} {w₁ : World}, s.Runs w before (a, r₁) w₁ →
      TakesUp r (before.flatMap Moment.taken) r₁)
    (h : (s.bind fun a => .done a.2).Runs w history r' w') :
    TakesUp r (history.flatMap Moment.taken) r' := by
  obtain ⟨before, ⟨a, r₁⟩, _, after, rfl, hbefore, hafter⟩ := h.of_bind
  rw [List.flatMap_append, hafter.2.flatMap_eq_nil rfl, List.append_nil, hafter.1]
  exact hs hbefore

/-- Every operation takes up the reads that have got their bytes. -/
theorem Op.takesUp {op : Op} (hr : r.origin = .bucket memo)
    (h : (op.script r).Runs w history r' w') : TakesUp r (history.flatMap Moment.taken) r' := by
  cases op with
  | content path => exact takesUp_of_bind (contentScript_takesUp hr) h
  | descriptor => exact takesUp_of_bind (descriptorScript_takesUp hr) h
  | contents => exact takesUp_of_bind (contentsScript_takesUp hr) h
  | write root => exact takesUp_of_bind (writeScript_takesUp hr) h
  | withDescriptor path =>
    rw [h.2.flatMap_eq_nil rfl, h.1]
    obtain ⟨hbucket, hmemo, honce, hfresh, hnamed⟩ := TakesUp.refl hr
    exact ⟨hbucket, hmemo, honce, hfresh, hnamed⟩
  | withResult path =>
    rw [h.2.flatMap_eq_nil rfl, h.1]
    obtain ⟨hbucket, hmemo, honce, hfresh, hnamed⟩ := TakesUp.refl hr
    exact ⟨hbucket, hmemo, honce, hfresh, hnamed⟩

theorem Life.takesUp {r₀ : Run} (hr : r₀.origin = .bucket memo) (h : Life r₀ history r) :
    TakesUp r₀ (history.flatMap Moment.taken) r := by
  induction h with
  | new => exact .refl hr
  | next op _ hop ih =>
    obtain ⟨memo', hr'⟩ := ih.bucket
    rw [List.flatMap_append]
    exact ih.trans (op.takesUp hr' hop)

/-- **What a run remembers is written once.** What an operation does with a store is among what its
    script may come to; and whatever operations a run goes through and whatever happens meanwhile,
    it takes up at most one read of each path, it remembers the bytes of these reads and no others,
    and asked for such a path again it gives these bytes without a call. -/
theorem memo_written_once {r₀ : Run} (hr : r₀.origin = .bucket []) (h : Life r₀ history r) :
    (∀ (store : Store) (op : Op) (s : Run) (v : World), ∃ history',
      (op.script s).Runs v history' (op.perform store s v).1 (op.perform store s v).2) ∧
    ((history.flatMap Moment.taken).map Prod.fst).Nodup ∧
    (∀ path bytes, r.memo.get? path = some bytes ↔ (path, bytes) ∈ history.flatMap Moment.taken) ∧
    ∀ path bytes, (path, bytes) ∈ history.flatMap Moment.taken →
      ∀ (store : Store) (v : World), r.content store path v = (.ok bytes, r, v) := by
  have htaken := h.takesUp hr
  have hmemo : ∀ path bytes,
      r.memo.get? path = some bytes ↔ (path, bytes) ∈ history.flatMap Moment.taken := by
    intro path bytes
    rw [htaken.memo, Run.memo, hr]
    simp [Fields.get?]
  refine ⟨?_, htaken.once, hmemo, ?_⟩
  · intro store op s v
    rw [← Op.script_run store s op v]
    exact (op.script s).run_runs store v
  · intro path bytes hmem store v
    obtain ⟨memo', hr'⟩ := htaken.bucket
    have hget := (hmemo path bytes).mpr hmem
    rw [Run.memo, hr'] at hget
    exact content_known hr' (htaken.named _ hmem) hget v

/-- A read that is cut off is not remembered, and the one that follows is. -/
theorem memo_written_once_read_again :
    ∃ r, Life { job := "job", id := "1" }
        [.cuts (.read "a"), .passes (.read "a") (.ok ByteArray.empty)] r ∧
      r.memo.get? "a" = some .empty ∧
      ∀ (store : Store) (v : World), r.content store "a" v = (.ok .empty, r, v) := by
  generalize hw : ({ disk := {} } : World) = w
  generalize hr₀ : ({ job := "job", id := "1" } : Run) = r₀
  generalize hr : ({ r₀ with origin := .bucket [("a", .empty)] } : Run) = r
  have hunfired : w.signal.fired = false := by
    subst hw
    rfl
  have hcut : ((Op.content "a").script r₀).Runs w [.cuts (.read "a")] r₀
      (w.reach (.read "a")).fire := by
    subst hr₀
    exact ⟨[], w, _, _, _, [], rfl, .refl w, .cuts hunfired rfl, rfl, .refl _⟩
  have hread : ((Op.content "a").script r₀).Runs w [.passes (.read "a") (.ok ByteArray.empty)] r
      (w.reach (.read "a")) := by
    subst hr₀ hr
    exact ⟨[], w, _, .ok ByteArray.empty, _, [], rfl, .refl w, .passes hunfired _, rfl, .refl _⟩
  have hlife := Life.next (.content "a") (.next (.content "a") (.new r₀) hcut) hread
  obtain ⟨_, _, hmemo, hagain⟩ := memo_written_once (by rw [← hr₀]) hlife
  exact ⟨r, hlife, (hmemo "a" .empty).mpr (by simp [Moment.taken]),
    hagain "a" .empty (by simp [Moment.taken])⟩

end Run

end RunCache
