import RathalOS.StoppedAdds
import RathalOS.StoppedDeletes

/-!
Whole runs of the tools in which any call may be stopped at any of its writes.
A call of add_file that was stopped is not repeated; delete_file is called again
until a call comes to its end, since a file that it has not yet erased may be
marked free. The image then stores what the calls that came to their end left, and
of the additions that were stopped each has had its effect or none.
-/
namespace RathalOS.StoppedRuns

open ByteMemory ByteFile Blocks CStrings Superblocks FileAccess Histories TornWrites Images AddFile
open DeleteFile Allocation AddedFiles EmptyImages ImageRuns WrittenImages MetadataWrites
open GuardedImages StoppedAdds StoppedDeletes

/-- How a call went. -/
inductive Report
  | succeeded
  | failed
  | stopped
  deriving DecidableEq

/-- Any number of calls. A deletion that came to its end has succeeded, even if there was no
file of the name. -/
inductive StoppedRun (sb : Superblock) (fs₀ : File) : List (Call × Report) → File → Prop
  | start : StoppedRun sb fs₀ [] fs₀
  | added {fs fs' : File} {calls : List (Call × Report)} {filename : Memory} {c : List Byte}
      {outcome : AddOutcome} (stale : Memory) (hrun : StoppedRun sb fs₀ calls fs)
      (hlen : c.length < 2 ^ 31)
      (hadd : addFile stale (File.ofList c) filename c.length fs = .ok (outcome, fs')) :
      StoppedRun sb fs₀
        (calls ++ [(.add filename c, if outcome = .added then .succeeded else .failed)]) fs'
  | addStopped {fs fs₁ fs' : File} {calls : List (Call × Report)} {filename : Memory}
      {c : List Byte} {outcome : AddOutcome} {images : List File} (stale : Memory)
      (hrun : StoppedRun sb fs₀ calls fs) (hlen : c.length < 2 ^ 31)
      (hadd : addFileImages stale (File.ofList c) filename c.length fs =
        .ok (outcome, fs₁, images))
      (hstop : Stop 512 (images.map File.bytes) fs'.bytes) (hsize : fs.size ≤ fs'.size) :
      StoppedRun sb fs₀ (calls ++ [(.add filename c, .stopped)]) fs'
  | deleted {fs fs' : File} {calls : List (Call × Report)} {filename : Memory}
      (hrun : StoppedRun sb fs₀ calls fs) (hdelete : Retried sb filename fs fs') :
      StoppedRun sb fs₀ (calls ++ [(.delete filename, .succeeded)]) fs'

/-- The histories that calls may leave: a call that succeeded leaves its event, one that
failed leaves none, and one that was stopped may have left it. -/
inductive Leaves : List (Call × Report) → List (Event (List Byte) (List Byte)) → Prop
  | start : Leaves [] []
  | event {calls : List (Call × Report)} {history : List (Event (List Byte) (List Byte))}
      {call : Call} {report : Report} (h : Leaves calls history) (hreport : report ≠ .failed) :
      Leaves (calls ++ [(call, report)]) (history ++ [call.event])
  | nothing {calls : List (Call × Report)} {history : List (Event (List Byte) (List Byte))}
      {call : Call} {report : Report} (h : Leaves calls history) (hreport : report ≠ .succeeded) :
      Leaves (calls ++ [(call, report)]) history

/-- The last call on a name that did not fail. -/
def lastCall (name : List Byte) (calls : List (Call × Report)) : Option (Call × Report) :=
  calls.reverse.find? fun e => decide (e.1.event.key = name ∧ e.2 ≠ .failed)

section Histories

variable {calls : List (Call × Report)} {history : List (Event (List Byte) (List Byte))}

theorem lastCall_concat (name : List Byte) (calls : List (Call × Report)) (e : Call × Report) :
    lastCall name (calls ++ [e]) =
      if e.1.event.key = name ∧ e.2 ≠ .failed then some e else lastCall name calls := by
  simp only [lastCall, List.reverse_append, List.reverse_singleton, List.singleton_append,
    List.find?_cons]
  by_cases h : e.1.event.key = name ∧ e.2 ≠ .failed <;> simp [h]

/-- A name is decided by the last call on it that did not fail, if that one was not stopped. -/
theorem Leaves.lastOn_eq (h : Leaves calls history) {name : List Byte} {call : Call}
    (hlast : lastCall name calls = some (call, .succeeded)) :
    lastOn name history = some call.event := by
  induction h with
  | start => cases hlast
  | @event calls history call' report h hreport ih =>
    rw [lastCall_concat] at hlast
    rw [lastOn_concat]
    by_cases hkey : call'.event.key = name
    · rw [if_pos ⟨hkey, hreport⟩] at hlast
      cases hlast
      exact if_pos hkey
    · rw [if_neg fun hand => hkey hand.1] at hlast
      rw [if_neg hkey]
      exact ih hlast
  | @nothing calls history call' report h hreport ih =>
    rw [lastCall_concat] at hlast
    split at hlast
    · cases hlast
      exact absurd rfl hreport
    · exact ih hlast

theorem Leaves.lastOn_none (h : Leaves calls history) {name : List Byte}
    (hlast : lastCall name calls = none) : lastOn name history = none := by
  induction h with
  | start => rfl
  | @event calls history call report h hreport ih =>
    rw [lastCall_concat] at hlast
    split at hlast
    · cases hlast
    · rename_i hnot
      rw [lastOn_concat, if_neg fun hkey => hnot ⟨hkey, hreport⟩]
      exact ih hlast
  | @nothing calls history call report h hreport ih =>
    rw [lastCall_concat] at hlast
    split at hlast
    · cases hlast
    · exact ih hlast

end Histories

section Steps

variable {sb : Superblock} {fs fs' fs₁ : File} {stale filename : Memory} {c : List Byte}
variable {outcome : AddOutcome} {images : List File}

/-- A call of add_file comes to its end, and has added the file or nothing. -/
theorem addFile_finished (hg : Guarded sb fs.bytes) (hlen : c.length < 2 ^ 31)
    (stale filename : Memory) :
    ∃ outcome fs', addFile stale (File.ofList c) filename c.length fs = .ok (outcome, fs') ∧
      Guarded sb fs'.bytes ∧ fs.size ≤ fs'.size ∧
      storeOf sb fs'.bytes =
        if outcome = .added then apply (storeOf sb fs.bytes) (.put (cut 31 filename) c)
        else storeOf sb fs.bytes := by
  rcases addFile_guarded hg stale filename (File.ofList c) (show c.length < 2 ^ 32 by omega) with
    ⟨outcome, fs', hok, hfail, hsize, hscribbled⟩ |
    ⟨hfresh, i, data, tables, fs', hok, hsize, hadded⟩
  · have hgrows := grows_of_scribbled hg.layout hscribbled
    refine ⟨outcome, fs', hok, hg.of_grows hgrows, hsize, ?_⟩
    rw [if_neg hfail]
    exact hgrows.keeps.storeOf hg
  · refine ⟨.added, fs', hok, hg.of_added hadded hlen hfresh, hsize, ?_⟩
    rw [if_pos rfl]
    exact storeOf_added_guarded hg hlen hfresh hadded

/-- Where a call of add_file was stopped, the image has grown by marks only, or by marks
and the file. -/
theorem addFile_stopped (hg : Guarded sb fs.bytes) (hs : Snug sb) (hlen : c.length < 2 ^ 31)
    (hadd : addFileImages stale (File.ofList c) filename c.length fs = .ok (outcome, fs₁, images))
    (hstop : Stop 512 (images.map File.bytes) fs'.bytes) :
    Guarded sb fs'.bytes ∧
      (storeOf sb fs'.bytes = storeOf sb fs.bytes ∨
        storeOf sb fs'.bytes = apply (storeOf sb fs.bytes) (.put (cut 31 filename) c)) := by
  rcases addFileImages_spec hg hadd with ⟨-, hscribbled⟩ |
    ⟨rfl, front, fs₀, fs₂, fs₃, ib, db, itab, himages, hend⟩
  · have hgrows : Grows sb ∅ ∅ fs.bytes fs'.bytes := by
      apply hstop.of_forall _ fun old new reached hold hnew => hold.torn hnew reached
      intro t ht
      obtain ⟨image, himage, rfl⟩ := List.mem_map.mp ht
      exact grows_of_scribbled hg.layout (hscribbled image himage)
    exact ⟨hg.of_grows hgrows, Or.inl (hgrows.keeps.storeOf hg)⟩
  · rcases addFile_guarded hg stale filename (File.ofList c) (show c.length < 2 ^ 32 by omega) with
      ⟨outcome', fs'', hok, hfail, -⟩ | ⟨hfresh, i, data, tables, fs'', hok, -, hadded⟩
    · rw [addFile_of_images hadd] at hok
      cases hok
      exact absurd rfl hfail
    rw [addFile_of_images hadd] at hok
    cases hok
    have hg' := hg.of_added hadded hlen hfresh
    rw [himages] at hstop
    rcases hend.grows_stopped hg hs hadded hstop with hgrows | hgrows
    · exact ⟨hg.of_grows hgrows, Or.inl (hgrows.keeps.storeOf hg)⟩
    · refine ⟨hg'.of_grows hgrows, Or.inr ?_⟩
      rw [hgrows.keeps.storeOf hg', storeOf_added_guarded hg hlen hfresh hadded]

end Steps

section Runs

variable {sb : Superblock} {fs₀ fs : File} {calls : List (Call × Report)}

/-- After any run whatever the files use is marked, and the image stores what some
history of the calls leaves. -/
theorem stoppedRun_store (hg : Guarded sb fs₀.bytes) (hs : Snug sb)
    (hcovers : sb.blockSize * (sb.datablocksStart + sb.datablockCount) ≤ fs₀.size)
    (h : StoppedRun sb fs₀ calls fs) :
    Guarded sb fs.bytes ∧ fs₀.size ≤ fs.size ∧ ∃ history, Leaves calls history ∧
      storeOf sb fs.bytes = replay (storeOf sb fs₀.bytes) history := by
  induction h with
  | start => exact ⟨hg, Nat.le_refl _, [], Leaves.start, rfl⟩
  | @added fs fs' calls filename c outcome stale hrun hlen hadd ih =>
    obtain ⟨hguarded, hsize, history, hleaves, hstore⟩ := ih
    obtain ⟨outcome', fs'', hok, hguarded', hsize', hstore'⟩ :=
      addFile_finished hguarded hlen stale filename
    rw [hadd] at hok
    cases hok
    refine ⟨hguarded', Nat.le_trans hsize hsize', ?_⟩
    by_cases houtcome : outcome = .added
    · rw [if_pos houtcome] at hstore' ⊢
      refine ⟨_, hleaves.event (by simp), ?_⟩
      rw [hstore', hstore, replay_concat]
      rfl
    · rw [if_neg houtcome] at hstore' ⊢
      exact ⟨history, hleaves.nothing (by simp), by rw [hstore', hstore]⟩
  | @addStopped fs fs₁ fs' calls filename c outcome images stale hrun hlen hadd hstop hsize' ih =>
    obtain ⟨hguarded, hsize, history, hleaves, hstore⟩ := ih
    obtain ⟨hguarded', hstore'⟩ := addFile_stopped hguarded hs hlen hadd hstop
    refine ⟨hguarded', Nat.le_trans hsize hsize', ?_⟩
    rcases hstore' with hstore' | hstore'
    · exact ⟨history, hleaves.nothing (by simp), by rw [hstore', hstore]⟩
    · refine ⟨_, hleaves.event (by simp), ?_⟩
      rw [hstore', hstore, replay_concat]
      rfl
  | @deleted fs fs' calls filename hrun hdelete ih =>
    obtain ⟨hguarded, hsize, history, hleaves, hstore⟩ := ih
    obtain ⟨hguarded', hsize', hstore'⟩ :=
      retried_erases hguarded hs (Nat.le_trans hcovers hsize) hdelete
    refine ⟨hguarded', Nat.le_trans hsize hsize', _, hleaves.event (by simp), ?_⟩
    rw [hstore', hstore, replay_concat]
    rfl

/-- Wherever calls of the tools are stopped, no file is lost. From an image that guards
its files, on which no padding leaves its region, every run leads to such an image. It
stores what a history of the calls leaves in which those that succeeded and some of
those that were stopped took place. So a name holds what the last call on it left that did
not fail, unless this one was stopped. What is stored is found and can be read back, and
the tools still return. -/
theorem stoppedRun_integrity (hg : Guarded sb fs₀.bytes) (hs : Snug sb)
    (hcovers : sb.blockSize * (sb.datablocksStart + sb.datablockCount) ≤ fs₀.size)
    (h : StoppedRun sb fs₀ calls fs) :
    Guarded sb fs.bytes ∧
    (∃ history, Leaves calls history ∧
      storeOf sb fs.bytes = replay (storeOf sb fs₀.bytes) history) ∧
    (∀ name call, lastCall name calls = some (call, .succeeded) →
      storeOf sb fs.bytes name = call.event.result) ∧
    (∀ name, lastCall name calls = none →
      storeOf sb fs.bytes name = storeOf sb fs₀.bytes name) ∧
    (∀ filename, (lookup filename (inodeTableOf sb fs.bytes)).isSome =
      (storeOf sb fs.bytes (cut 31 filename)).isSome) ∧
    (∀ filename c, storeOf sb fs.bytes (cut 31 filename) = some c → ∀ stale dest,
      ∃ p, fsRead stale filename 0 c.length dest fs =
        .ok (.done, fun a => if a < c.length then c.getD a 0 else dest a, fs.movedTo p)) ∧
    (∀ (stale filename : Memory) (c : List Byte), c.length < 2 ^ 31 →
      ∃ outcome fs', addFile stale (File.ofList c) filename c.length fs = .ok (outcome, fs')) ∧
    ∀ stale filename, Spares sb filename fs.bytes →
      ∃ r, deleteFile stale filename fs = .ok r := by
  obtain ⟨hguarded, hsize, history, hleaves, hstore⟩ := stoppedRun_store hg hs hcovers h
  have hcovers' := Nat.le_trans hcovers hsize
  refine ⟨hguarded, ⟨history, hleaves, hstore⟩, ?_, ?_, ?_, ?_, ?_, ?_⟩
  · intro name call hlast
    rw [hstore, replay_eq, hleaves.lastOn_eq hlast]
  · intro name hlast
    rw [hstore, replay_eq, hleaves.lastOn_none hlast]
  · intro filename
    exact lookup_isSome_eq hguarded.names filename
  · intro filename c hc stale dest
    exact fsRead_guarded hguarded hcovers' hc stale dest
  · intro stale filename c hlen
    obtain ⟨outcome, fs', hok, -⟩ := addFile_finished hguarded hlen stale filename
    exact ⟨outcome, fs', hok⟩
  · intro stale filename hspares
    obtain ⟨r, images, hok⟩ := deleteFileImages_returns hguarded hcovers' hspares stale
    exact ⟨r, deleteFile_of_images hok⟩

/-- The images of a call of add_file. -/
def imagesOf (r : Except Fault (AddOutcome × File × List File)) : List File :=
  match r with
  | .ok (_, _, images) => images
  | .error _ => []

/-- The small image after a call of add_file that was stopped before the inode table. -/
def stoppedImage : File :=
  (imagesOf (addFileImages (fun _ => 0) (File.ofList smallContents) (nameOf 98)
    smallContents.length (emptyImage smallSuperblock))).getD 3 File.empty

/-- Adding the file again, since the first call was stopped. -/
def repeatedImage : File :=
  imageOf (addFile (fun _ => 0) (File.ofList smallContents) (nameOf 98) smallContents.length
    stoppedImage)

theorem repeatedImage_run : StoppedRun smallSuperblock (emptyImage smallSuperblock)
    [(.add (nameOf 98) smallContents, .stopped), (.add (nameOf 98) smallContents, .succeeded)]
    repeatedImage := by
  have hlen : smallContents.length < 2 ^ 31 := by decide
  have hfirst : addFile (fun _ => 0) (File.ofList smallContents) (nameOf 98) smallContents.length
      (emptyImage smallSuperblock) = .ok (.added, smallFileImage) :=
    eq_of_succeeded (by decide +kernel)
  obtain ⟨images, hrun⟩ := exists_addFileImages hfirst
  have hlisted : stoppedImage ∈ images := by
    have hcount : 3 < (imagesOf (addFileImages (fun _ => 0) (File.ofList smallContents)
        (nameOf 98) smallContents.length (emptyImage smallSuperblock))).length := by
      decide +kernel
    unfold stoppedImage
    rw [hrun] at hcount ⊢
    rw [List.getD_eq_getElem _ _ hcount]
    exact List.getElem_mem hcount
  have hstopped : StoppedRun smallSuperblock (emptyImage smallSuperblock)
      [(.add (nameOf 98) smallContents, .stopped)] stoppedImage :=
    StoppedRun.addStopped (fun _ => 0) StoppedRun.start hlen hrun
      (stop_of_mem 512 (List.mem_map_of_mem hlisted)) (by decide +kernel)
  have hadd : addFile (fun _ => 0) (File.ofList smallContents) (nameOf 98) smallContents.length
      stoppedImage = .ok (.added, repeatedImage) := eq_of_succeeded (by decide +kernel)
  exact StoppedRun.added (fun _ => 0) hstopped hlen hadd

theorem repeatedImage_spares : Spares smallSuperblock (nameOf 98) repeatedImage.bytes := by
  have hfound : lookup (nameOf 98) (inodeTableOf smallSuperblock repeatedImage.bytes) = some 2 := by
    decide +kernel
  intro i hi
  rw [hfound] at hi
  cases hi
  exact spares_of_direct (by decide +kernel)

/-- The file is there although the first call was stopped, until it is deleted. -/
theorem stoppedRun_integrity_small : ∃ p fs,
    fsRead (fun _ => 0) (nameOf 98) 0 2 (fun _ => 0) repeatedImage =
      .ok (.done, fun a => if a < 2 then smallContents.getD a 0 else 0,
        repeatedImage.movedTo p) ∧
    StoppedRun smallSuperblock (emptyImage smallSuperblock)
      [(.add (nameOf 98) smallContents, .stopped), (.add (nameOf 98) smallContents, .succeeded),
        (.delete (nameOf 98), .succeeded)] fs ∧
    (lookup (nameOf 98) (inodeTableOf smallSuperblock fs.bytes)).isSome = false := by
  have hg := guarded_of_wellFormed smallImage_wellFormed
  have hcovers := smallImage_wellFormed.covers
  obtain ⟨hguarded, -, hlast, -, -, hread, -⟩ :=
    stoppedRun_integrity hg smallSuperblock_snug hcovers repeatedImage_run
  have hstored := hlast (cut 31 (nameOf 98)) (.add (nameOf 98) smallContents)
    ((lastCall_concat _ [_] _).trans (if_pos ⟨rfl, by decide⟩))
  obtain ⟨p, hok⟩ := hread (nameOf 98) smallContents hstored (fun _ => 0) (fun _ => 0)
  obtain ⟨-, hsize, -⟩ := stoppedRun_store hg smallSuperblock_snug hcovers repeatedImage_run
  obtain ⟨r, images, hdelete⟩ := deleteFileImages_returns hguarded (Nat.le_trans hcovers hsize)
    repeatedImage_spares (fun _ => 0)
  have hrun := StoppedRun.deleted repeatedImage_run (Retried.finished repeatedImage_spares hdelete)
  obtain ⟨-, -, hlast', -, hfound, -⟩ :=
    stoppedRun_integrity hg smallSuperblock_snug hcovers hrun
  refine ⟨p, r.fs, hok, hrun, ?_⟩
  rw [hfound, hlast' (cut 31 (nameOf 98)) (.delete (nameOf 98))
    ((lastCall_concat _ [_, _] _).trans (if_pos ⟨rfl, by decide⟩))]
  rfl

end Runs

end RathalOS.StoppedRuns
