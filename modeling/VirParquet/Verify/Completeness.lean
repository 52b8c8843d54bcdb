import VirParquet.Verify.Acceptance
import VirParquet.Verify.Pipeline

/-!
# Every VTK file with its arrays is accepted

`Stores` says that the elements of an array stand in a VTK file. For such an array there is a map if
its name and its elements have room in a Parquet file (`Stores.exists_map`), and so a file with all
elements that are asked for, in which all arrays stand, is accepted (`parseVtkFile_complete`).
-/

namespace VirParquet.Verify

open VirParquet.Found VirParquet.Found.Thrift VirParquet.Found.Base64 VirParquet.Model
  VirParquet.Spec

/-- There is room for an array in a Parquet file: its name is short enough for the footer, and it
has elements, but not more of them than the pages that the footer is for can hold. -/
structure HasRoom {σ : Type} (storage : Storage σ) (name : Bytes) (A : StoredArray) : Prop where
  length_name_lt : name.length < 2 ^ 30
  ne_nil : A.bytes ≠ []
  length_le : storage.codec = .none → A.bytes.length ≤ 2 ^ 46

section stores

variable {σ : Type} {thrift : Protocol} {heap : Heap} {dec : Decoder}
  {decompress : CompressionCodec → Bytes → Option Bytes} {storage : Storage σ} {w place : ℕ}
  {bytes name : Bytes} {A : StoredArray} {type : DataType} {physical : PhysicalType}
  {converted : Option ConvertedType}

/-- **There is a map of an array** that stands in the file and for which there is room. -/
theorem Stores.exists_map (h : Stores heap decompress storage w place bytes A)
    (hdec : dec.IsStandard)
    (hheader : storage.headerType = .uint32 ∨ storage.headerType = .uint64)
    (hbase : CompleteReads storage.base bytes) (hbytes : bytes.length < 2 ^ 63)
    (htables : Tables type w physical converted) (hroom : HasRoom storage name A) (s : σ) :
    ∃ p, parseAppendedArray thrift heap dec storage.base name type storage.codec storage.enc
      storage.headerType place s = .ok p := by
  cases h with
  | @plain before after D hcodec hplace hfile hword hdvd =>
      subst hplace hfile
      have hD : StoredArray.bytes ⟨[D], [D.length]⟩ = D := List.append_nil D
      have hform : FormAt storage.enc storage.headerType [D.length] D before after storage.base :=
        ⟨hheader, hbytes, hbase⟩
      obtain ⟨s₁, hs₁⟩ := hform.parseUncompressed_of_fits hdec hword s
      set dataStart := adjustDataStart before.length (storage.enc == .base64)
        (headerOf storage.headerType [D.length]).length
      have hplain : UncompressedForm D ⟨D.length, dataStart⟩ D := ⟨rfl, [], (D.append_nil).symm⟩
      have hmax := hroom.length_le hcodec
      have hpos := List.length_pos_iff.mpr hroom.ne_nil
      rw [hD] at hmax hpos
      have hnum : UncompressedArray.numBlks ⟨D.length, dataStart⟩ = (D.length + 32767) / 32768 :=
        hplain.numBlks_eq (by omega)
      have hnum_pos : 1 ≤ UncompressedArray.numBlks ⟨D.length, dataStart⟩ := by omega
      have hnum_le : UncompressedArray.numBlks ⟨D.length, dataStart⟩ ≤ 2 ^ 31 := by omega
      have hshort := Layout.length_footerBytes_lt ⟨thrift, w⟩
        ⟨name, physical, converted, .uncompressed⟩ hroom.length_name_lt
        (fun b hb => fits_of_mem_uncompressedBlks hb)
        ((length_uncompressedBlks hnum_pos).trans_le hnum_le)
      obtain ⟨m, hm, -⟩ := @buildMapUncompressed_of_lt thrift name type w physical converted
        (storage.enc == .base64) htables _ hnum_pos hnum_le hshort
      refine ⟨(m, s₁), ?_⟩
      rw [parseAppendedArray, if_pos hcodec, Exec.bind_of_eq_ok hs₁]
      exact Exec.bind_of_eq_ok hm _
  | @compressed before after payload arr blocks c hcodec hnone hplace hfile hblocks hdvd hwords hnum
      hheap =>
      subst hplace hfile
      have hform : FormAt storage.enc storage.headerType arr.words payload before after
          storage.base := ⟨hheader, hbytes, hbase⟩
      obtain ⟨s₁, hs₁⟩ := hform.parseCompressed hdec hblocks.length_eq hnum hwords hheap s
      have hpos : 1 ≤ arr.numBlks := by
        by_contra hzero
        apply hroom.ne_nil
        have hnil : blocks.length = 0 := by
          rw [hblocks.length_blocks]
          omega
        rw [StoredArray.bytes, List.length_eq_zero_iff.mp hnil, List.flatten_nil]
      set arr' : CompressedArray := { arr with
        dataStart := adjustDataStart before.length (storage.enc == .base64)
          (headerOf storage.headerType arr.words).length }
      have hlen : arr'.compressedBlkSz.length = arr'.numBlks := hblocks.length_eq
      have hle : arr'.numBlks ≤ 2 ^ 31 := by
        show arr.numBlks ≤ 2 ^ 31
        omega
      have hshort := Layout.length_footerBytes_lt ⟨thrift, w⟩ ⟨name, physical, converted, c⟩
        hroom.length_name_lt (fun b hb => fits_of_mem_compressedBlks hb)
        ((length_compressedBlks arr').trans_le (hlen.trans_le hle))
      obtain ⟨m, hm, -⟩ := @buildMapCompressed_of_lt thrift name type storage.codec w physical
        converted c (storage.enc == .base64) htables arr' hcodec hlen hpos hle hshort
      refine ⟨(m, s₁), ?_⟩
      rw [parseAppendedArray, if_neg hnone, Exec.bind_of_eq_ok hs₁]
      exact Exec.bind_of_eq_ok hm _

end stores

/-- **Every VTK file with its arrays is accepted.** A file of a kind that the library reads and that
has all elements which are asked for, over a base that reads it completely, is accepted from every
state if each array is described and stands where its attributes say, in one of the forms that the
format has, and there is room for it in a Parquet file. -/
theorem parseVtkFile_complete {E σ : Type} (thrift : Protocol) (heap : Heap) (dec : Decoder)
    (hdec : dec.IsStandard) (decompress : CompressionCodec → Bytes → Option Bytes)
    (input : VtkInput E σ) (fname : CString) (kind : MeshKind) (hkind : kindOf fname = some kind)
    (hupdate : (input.reader kind.cls).updateInformation = true) (root : E) (storage : Storage σ)
    (hstorage : IsStorageOf input kind.cls root storage)
    (hstat : ∃ statbuf, input.stat = some statbuf) (helements : HasElements input kind root)
    (bytes : Bytes) (hpread : PreadLike storage.base bytes)
    (hbase : CompleteReads storage.base bytes) (hbytes : bytes.length < 2 ^ 63)
    (harrays : ∀ sec ∈ kind.arrays input, ∀ arr ∈ sec.2, ∃ type offset w A,
      Describes (sec.2.attributes input.xml arr.1.bytes) type offset ∧
        getValueSize type = .ok w ∧
        Stores heap decompress storage w (storage.place offset) bytes A ∧
        HasRoom storage arr.1.bytes A)
    (s : σ) :
    ∃ tree s', parseVtkFile thrift heap dec input fname s = .ok (tree, s') := by
  have hwell : IsWellFormed thrift heap dec input kind root storage := by
    refine ⟨hupdate, hstorage, hstat, helements, fun sec hsec arr harr => ?_⟩
    obtain ⟨type, offset, w, A, hdescribes, hw, hstores, hroom⟩ := harrays sec hsec arr harr
    obtain ⟨w', physical, converted, htables⟩ := exists_tables (ne_unknown_of_getValueSize hw)
    obtain rfl : w' = w := Except.ok.inj (htables.valueSize_eq.symm.trans hw)
    obtain ⟨⟨m, s'⟩, hm⟩ := hstores.exists_map hdec (headerType_eq_or hstorage) hbase hbytes
      htables hroom s
    exact ⟨m, type, offset, s, s', hdescribes, hm⟩
  obtain ⟨hcls, heq⟩ := @parseVtkFile_eq_of_kindOf E σ thrift heap dec input fname kind hkind s
  obtain ⟨⟨tree, s'⟩, htree⟩ := parseVtkFileInternal_of_isWellFormed hcls
    (repeats_of_completeReads hpread hbase) hwell s
  exact ⟨tree, s', heq.trans htree⟩

/-- The file with one array has the elements that are looked up. -/
theorem hasElements_small (name : CString) :
    HasElements (smallInput name) ⟨ascii "ImageData", .imageData, false, false⟩ .root where
  mesh := ⟨.imageData, rfl⟩
  pointData _ := ⟨.pointData, rfl, le_rfl⟩
  cellData h := absurd rfl h
  points h := absurd h Bool.false_ne_true
  cells h := absurd h Bool.false_ne_true

/-- The theorem at the file with one array. -/
theorem parseVtkFile_complete_x :
    ∃ tree s', parseVtkFile compact zeroHeap standardDecoder (smallInput smallName)
      (cString "a.vti" (by decide)) () = .ok (tree, s') := by
  refine parseVtkFile_complete compact zeroHeap standardDecoder standardDecoder_isStandard
    (fun _ => inflateStored) (smallInput smallName) _ _ kindOf_small rfl .root smallStorage
    (isStorageOf_small _) ⟨_, rfl⟩ (hasElements_small _) [95, 4, 0, 0, 0, 1, 2, 3, 4]
    (osFile_preadLike _) (osFile_completeReads _) (by decide) ?_ ()
  intro sec hsec arr harr
  obtain ⟨rfl, rfl⟩ := eq_of_mem_arrays_small hsec harr
  exact ⟨.int32, 0, 4, _, describes_small, rfl, stores_small, by decide, by decide,
    fun _ => by decide⟩

end VirParquet.Verify
