import Coinshift.ArchiveRuns

/-! What holds of an archive whichever blocks were taken out of it again: both trees, and the main-chain blocks of the
results. The results themselves are not kept up to date when a block is invalidated. -/
namespace Coinshift
open Checked Lineage

variable {F : Type} {lib : Externals F} {world : World}

namespace Archive

variable {archive archive' : Archive F} {b p : BlockHash} {m : MainHash}

structure Grove (lib : Externals F) (world : World) (archive : Archive F) : Prop where
  main : MainTree world archive
  sides : SideTree lib world archive
  infos : InfosKept world archive
  results : ∀ {b m}, archive.verifiedAt b m → (archive.mainHeaderInfos.tryGet m).isSome = true

structure Woods (lib : Externals F) (world : World) (archive : Archive F) : Prop extends Grove lib world archive where
  jumps : ∀ {b h js}, archive.blockHashToHeight.tryGet b = some h → archive.exponentialAncestors.tryGet b = some js →
    ∀ i < js.length, 2 ^ (i + 1) ≤ h

theorem Trees.grove (trees : Trees lib world archive) : Grove lib world archive := by
  refine ⟨trees.main,trees.sides,trees.infos,fun {b m} verified => ?_⟩
  obtain ⟨_,info,_,stored,_⟩ := ((trees.results b m).mp verified).known
  exact Option.isSome_iff_exists.mpr ⟨info,stored⟩

section Puts

theorem Woods.putHeader {header : Header} (woods : Woods lib world archive)
    (names : header = world.header (header.hash lib)) (ok : archive.putHeader lib header = .ok archive') :
    Woods lib world archive' := by
  have source := putHeaderSource ok
  have sides := woods.sides.put names source
  obtain ⟨height,set,js,mainBlocks,results,isHeight,isSet,found,isMain,isResults,rfl⟩ := source
  refine ⟨⟨{ woods.main with },sides,{ woods.infos with },fun {b m} verified => ?_⟩,fun {b h js} known isJumps => ?_⟩
  · unfold verifiedAt getBmmResults at verified
    rw [Table.tryGetPut] at verified
    split at verified
    · rcases foldEntered isResults m with ⟨mem,_⟩ | ⟨_,same⟩
      · obtain ⟨info,stored,_⟩ := (woods.main.next isMain).mp mem
        exact Option.isSome_iff_exists.mpr ⟨info,stored⟩
      · exact woods.results (same.symm.trans verified)
    · exact woods.results verified
  · rw [enterJumps,enterHeader,Table.tryGetPut] at known
    rw [enterJumps,enterHeader,Table.tryGetPut] at isJumps
    split at known
    · next here =>
        cases known
        rw [if_pos here] at isJumps
        cases isJumps
        unfold exponentialAncestorsFor at found
        split at found
        · exact Links.exponentialFit found
        · cases found
          exact fun i inside => absurd inside (Nat.not_lt_zero i)
    · next other =>
        rw [if_neg other] at isJumps
        exact woods.jumps known isJumps

theorem Woods.putMainInfo {blockInfo : BlockInfo} (woods : Woods lib world archive) (names : blockInfo = world.mainInfo m)
    (ok : archive.putMainBlockInfo m blockInfo = .ok archive') : Woods lib world archive' := by
  have source := putMainInfoSource ok
  have infos := source.infos woods.infos names
  obtain ⟨info,stored,_,⟨_,rfl⟩ | ⟨c,header,result,_,_,_,rfl⟩⟩ := source
  · exact ⟨⟨{ woods.main with },{ woods.sides with },infos,woods.results⟩,woods.jumps⟩
  · refine ⟨⟨{ woods.main with },{ woods.sides with },infos,fun {b n} verified => ?_⟩,woods.jumps⟩
    unfold verifiedAt getBmmResults at verified
    rw [Table.tryGetPut] at verified
    split at verified
    · rw [Option.getD_some,Table.tryGetPut] at verified
      split at verified
      · next here => exact Option.isSome_iff_exists.mpr ⟨info,here ▸ stored⟩
      · exact woods.results verified
    · exact woods.results verified

theorem Woods.putMainHeader {info : BlockHeaderInfo} (woods : Woods lib world archive) (names : world.NamesMain info)
    (ok : archive.putMainHeaderInfo info = .ok archive') : Woods lib world archive' := by
  have source := putMainHeaderSource ok
  have main := woods.main.put names source
  obtain ⟨parent,height,work,set,js,isHeight,isWork,isSet,found,rfl⟩ := source
  have infos : archive.mainHeaderInfos.Grows (archive.mainHeaderInfos.put info.blockHash info) :=
    Table.putGrows (woods.main.again names)
  refine ⟨⟨main,{ woods.sides with },⟨woods.infos.named,?_⟩,?_⟩,woods.jumps⟩
  · intro m blockInfo known
    obtain ⟨old,stored,closed⟩ := woods.infos.closed known
    exact ⟨old,infos _ _ stored,closed⟩
  · intro b m verified
    obtain ⟨old,stored⟩ := Option.isSome_iff_exists.mp (woods.results verified)
    exact Option.isSome_iff_exists.mpr ⟨old,infos _ _ stored⟩

theorem Woods.bodies (woods : Woods lib world archive) {bodies : Table BlockHash Body} {sideTips : SideTips}
    {accumulators : Table BlockHash F}
    (stored : ∀ b, (bodies.tryGet b).isSome = true → (archive.headers.tryGet b).isSome = true) :
    Woods lib world { archive with bodies,sideTips,accumulators } :=
  ⟨⟨{ woods.main with },{ woods.sides with bodies := stored _ },{ woods.infos with },woods.results⟩,woods.jumps⟩

theorem Woods.tips (woods : Woods lib world archive) {sideTips : SideTips} : Woods lib world { archive with sideTips } :=
  woods.bodies (fun _ stored => woods.sides.bodies stored)

theorem Woods.putAccumulator (woods : Woods lib world archive) {accumulator : F} :
    Woods lib world (archive.putAccumulator b accumulator) :=
  woods.bodies (fun _ stored => woods.sides.bodies stored)

theorem Woods.putBody (woods : Woods lib world archive) {body : Body} (ok : archive.putBody b body = .ok archive') :
    Woods lib world archive' := by
  obtain ⟨header,tips,rfl⟩ := putBodyFrame ok
  refine woods.bodies (fun c stored => ?_)
  rw [Table.tryGetPut] at stored
  split at stored
  · next here => rw [here,header]
  · exact woods.sides.bodies stored

theorem Woods.deleteBody (woods : Woods lib world archive) (ok : archive.deleteBody b = .ok archive') :
    Woods lib world archive' := by
  obtain ⟨tips,rfl⟩ := disconnectQueueFrame ok
  refine woods.bodies (fun c stored => ?_)
  rw [Table.tryGetDelete] at stored
  split at stored
  · cases stored
  · exact woods.sides.bodies stored

end Puts

theorem Woods.step (woods : Woods lib world archive) {op : ArchiveOp} (names : op.Names lib world)
    (ok : op.apply lib archive = .ok archive') : Woods lib world archive' := by
  cases op with
  | handleBlockEvent event =>
      cases event with
      | connectBlock info blockInfo =>
          obtain ⟨first,second,_,_,header,contents,_,_,rfl⟩ := connectEventSource ok
          exact ((woods.putMainHeader names.1 header).putMainInfo names.2 contents).tips
      | disconnectBlock m =>
          obtain ⟨_,_,_,_,_,_,_,_,rfl⟩ := disconnectEventSource ok
          exact woods.tips
  | putMainHeaderInfo info => exact woods.putMainHeader names ok
  | putMainBlockInfo m blockInfo => exact woods.putMainInfo names ok
  | putHeader header => exact woods.putHeader names ok
  | putBody b body => exact woods.putBody ok
  | deleteBody b => exact woods.deleteBody ok

theorem Woods.new : Woods lib world (Archive.new F) :=
  ⟨Trees.new.grove,fun known => by cases Table.tryGetEmpty.symm.trans known⟩

section Results

theorem Grove.parentVerified (grove : Grove lib world archive) {info : BlockHeaderInfo}
    (stored : archive.mainHeaderInfos.tryGet m = some info) :
    ∃ answer, archive.parentVerified (archive.getBmmResults p) m = .ok answer := by
  obtain ⟨h,known,_⟩ := grove.main.heights.counted stored
  obtain ⟨answer,isAnswer,_⟩ := @anyVerified (archive.getBmmResults p).entries
    (fun n => archive.isMainDescendant n m) (fun n => archive.mainLinks.Descends n m) (by
      rintro ⟨n,result⟩ mem rfl
      obtain ⟨above,isAbove⟩ := Option.isSome_iff_exists.mp (grove.results (Table.memEntries.mp mem))
      obtain ⟨k,aboveKnown,_⟩ := grove.main.heights.counted isAbove
      exact grove.main.sound.isDescendant (mainHeightOk.mpr aboveKnown) (mainHeightOk.mpr known))
  exact ⟨answer,isAnswer⟩

theorem Grove.bmmResultTotal (grove : Grove lib world archive) (header : Header)
    (known : (archive.mainBlockInfos.tryGet m).isSome = true) :
    ∃ result, archive.bmmResultAt header b (header.prevSideHash.map archive.getBmmResults) m = .ok result := by
  obtain ⟨blockInfo,found⟩ := Option.isSome_iff_exists.mp known
  obtain ⟨info,stored,_⟩ := grove.infos.closed found
  unfold bmmResultAt
  rw [getMainBlockInfo,okOrOk.mpr found,okBind]
  split
  · exact ⟨.failed,rfl⟩
  · split
    · exact ⟨.failed,rfl⟩
    · rw [getMainHeaderInfo,okOrOk.mpr stored,okBind]
      split
      · exact ⟨.failed,rfl⟩
      · cases header.prevSideHash with
        | none => exact ⟨.verified,rfl⟩
        | some p =>
            obtain ⟨answer,isAnswer⟩ := @Grove.parentVerified _ _ _ archive p m grove info stored
            refine ⟨if answer then .verified else .failed,?_⟩
            simp only [Option.map_some,isAnswer,okBind]
            rfl

end Results

end Archive

end Coinshift
