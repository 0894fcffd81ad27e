import Mathlib

/-!
# Reading files

`dfs_read`, with the widths of its arithmetic: the length of an extent in bytes is computed in 32
bits, the end of the range in 64, and the result is an `int`.
-/
namespace PointerOS

/-- `extent_t` without `logical_block`. -/
structure Extent where
  length : ℕ
  startBlock : ℕ

/-- The parts of `inode_t` that a read depends on. -/
structure Inode where
  size : ℕ
  extents : Fin 4 → Extent

/-- `vfs_node_t` with the inode of its `priv_data`. -/
structure VfsNode where
  type : ℕ
  inode : Inode

def dfsTypeFile : ℕ := 1

/-- The value converted to `int`. -/
def toInt (x : ℕ) : ℤ := if x % 2 ^ 32 < 2 ^ 31 then (x % 2 ^ 32 : ℕ) else (x % 2 ^ 32 : ℕ) - 2 ^ 32

/-- What is returned, and the source and the length of what is copied into the buffer. -/
structure DfsRead where
  result : ℤ
  source : ℕ
  count : ℕ
deriving DecidableEq

/-- `extents[0].length * DFS_BLOCKSIZE`. -/
def VfsNode.extentSize (node : VfsNode) : ℕ := (node.inode.extents 0).length * 4096 % 2 ^ 32

/-- The address of the first extent. -/
def VfsNode.startBlock (node : VfsNode) (ramdisk : ℕ) : ℕ :=
  (ramdisk + (node.inode.extents 0).startBlock * 4096) % 2 ^ 64

def dfsRead (ramdisk : ℕ) (node : Option VfsNode) (offset size buffer : ℕ) : DfsRead :=
  match node with
  | none => ⟨-1, 0, 0⟩
  | some node =>
    if size = 0 ∨ buffer = 0 ∨ node.type ≠ dfsTypeFile then ⟨-1, 0, 0⟩
    else if node.extentSize < offset then ⟨-1, 0, 0⟩
    else if offset = node.extentSize then ⟨0, 0, 0⟩
    else
      let size := if node.extentSize < (size + offset) % 2 ^ 64 then node.extentSize - offset else size
      ⟨toInt size, node.startBlock ramdisk, size⟩

section Reads
variable {ramdisk : ℕ} {node : VfsNode} {offset size buffer : ℕ}

theorem toInt_eq_iff {n : ℕ} : toInt n = n ↔ n < 2 ^ 31 := by
  unfold toInt
  split_ifs <;> omega

/-- The end of the range, in 64 bits, is the exact one or past the extent. -/
def RangeFits (node : VfsNode) (offset size : ℕ) : Prop :=
  size + offset < 2 ^ 64 ∨ node.extentSize < (size + offset) % 2 ^ 64

instance (node : VfsNode) (offset size : ℕ) : Decidable (RangeFits node offset size) :=
  inferInstanceAs (Decidable (size + offset < 2 ^ 64 ∨ node.extentSize < (size + offset) % 2 ^ 64))

/-- The three ways in which a read with arguments ends. -/
theorem dfsRead_cases (ramdisk : ℕ) (hfile : node.type = dfsTypeFile) (hbuffer : buffer ≠ 0) (hsize : 0 < size)
    (hlt : size < 2 ^ 64) (hoffset : offset < 2 ^ 32) :
    node.extentSize < offset ∧ dfsRead ramdisk (some node) offset size buffer = ⟨-1, 0, 0⟩ ∨
    offset = node.extentSize ∧ dfsRead ramdisk (some node) offset size buffer = ⟨0, 0, 0⟩ ∨
    offset < node.extentSize ∧ ∃ n, 0 < n ∧
      dfsRead ramdisk (some node) offset size buffer = ⟨toInt n, node.startBlock ramdisk, n⟩ ∧
      (RangeFits node offset size → n = min size (node.extentSize - offset)) ∧
      (¬RangeFits node offset size → n = size ∧ 2 ^ 64 ≤ size + offset) := by
  have hargs : ¬(size = 0 ∨ buffer = 0 ∨ node.type ≠ dfsTypeFile) := by
    rw [hfile]
    omega
  have hE : node.extentSize < 2 ^ 32 := Nat.mod_lt _ (by decide)
  rw [dfsRead, if_neg hargs]
  rcases lt_trichotomy node.extentSize offset with h | h | h
  · exact .inl ⟨h, if_pos h⟩
  · refine .inr (.inl ⟨h.symm, ?_⟩)
    rw [if_neg (by omega), if_pos h.symm]
  · refine .inr (.inr ⟨h, _, ?_, by rw [if_neg (by omega), if_neg (by omega)], fun hfit => ?_, fun hfit => ?_⟩)
    · split_ifs <;> omega
    · unfold RangeFits at hfit
      split_ifs <;> omega
    · unfold RangeFits at hfit
      rw [if_neg (by omega)]
      exact ⟨rfl, by omega⟩

/-! ## Bounds -/

/-- The copy stays inside the request and inside the extent, and the result tells its length. -/
structure ReadInBounds (ramdisk : ℕ) (node : VfsNode) (offset size buffer : ℕ) : Prop where
  count : (dfsRead ramdisk (some node) offset size buffer).count ≤ size
  source : (dfsRead ramdisk (some node) offset size buffer).count = 0 ∨
    ∃ k, (dfsRead ramdisk (some node) offset size buffer).source = node.startBlock ramdisk + k ∧
      k + (dfsRead ramdisk (some node) offset size buffer).count ≤ (node.inode.extents 0).length * 4096
  result : (dfsRead ramdisk (some node) offset size buffer).result ≠ -1 →
    (dfsRead ramdisk (some node) offset size buffer).result = (dfsRead ramdisk (some node) offset size buffer).count
  positive : offset < (node.inode.extents 0).length * 4096 →
    0 < (dfsRead ramdisk (some node) offset size buffer).result

/-- Below the extent's length in 32 bits the range does not wrap and the result fits into an `int`,
and from it on the length has not wrapped. -/
def ReadFits (node : VfsNode) (offset size : ℕ) : Prop :=
  if offset < node.extentSize then RangeFits node offset size ∧ min size (node.extentSize - offset) < 2 ^ 31
  else (node.inode.extents 0).length < 2 ^ 20

/-- A read stays in bounds exactly when the range, the length of the extent and the result fit their widths. -/
theorem dfs_read_bounds_iff (hfile : node.type = dfsTypeFile) (hbuffer : buffer ≠ 0) (hsize : 0 < size)
    (hlt : size < 2 ^ 64) (hoffset : offset < 2 ^ 32) (hlength : (node.inode.extents 0).length < 2 ^ 32) :
    ReadInBounds ramdisk node offset size buffer ↔ ReadFits node offset size := by
  have hE : node.extentSize = (node.inode.extents 0).length * 4096 % 2 ^ 32 := rfl
  unfold ReadFits
  rcases dfsRead_cases ramdisk hfile hbuffer hsize hlt hoffset with ⟨h, hr⟩ | ⟨h, hr⟩ | ⟨h, n, hn, hr, hfit, hwrap⟩
  · rw [if_neg (by omega)]
    constructor
    · intro hb
      have hpos := hb.positive
      rw [hr] at hpos
      dsimp only at hpos
      by_contra hlen
      have := hpos (by omega)
      omega
    · intro hlen
      refine ⟨?_, ?_, ?_, fun hlow => ?_⟩
      · rw [hr]
        exact Nat.zero_le _
      · exact .inl (by rw [hr])
      · rw [hr]
        exact fun hne => absurd rfl hne
      · omega
  · rw [if_neg (by omega)]
    constructor
    · intro hb
      have hpos := hb.positive
      rw [hr] at hpos
      dsimp only at hpos
      by_contra hlen
      have := hpos (by omega)
      omega
    · intro hlen
      refine ⟨?_, ?_, ?_, fun hlow => ?_⟩
      · rw [hr]
        exact Nat.zero_le _
      · exact .inl (by rw [hr])
      · rw [hr]
        exact fun _ => rfl
      · omega
  · rw [if_pos h]
    have hlow : offset < (node.inode.extents 0).length * 4096 := by omega
    constructor
    · intro hb
      obtain ⟨h1, h2, h3, h4⟩ := hb
      rw [hr] at h1 h2 h3 h4
      dsimp only at h1 h2 h3 h4
      have hpos := h4 hlow
      have hint := toInt_eq_iff.mp (h3 (by omega))
      have hrange : RangeFits node offset size := by
        by_contra hno
        obtain ⟨rfl, hbig⟩ := hwrap hno
        omega
      exact ⟨hrange, (hfit hrange) ▸ hint⟩
    · rintro ⟨hrange, hint⟩
      have hmin := hfit hrange
      rw [← hmin] at hint
      have heq := toInt_eq_iff.mpr hint
      refine ⟨?_, .inr ⟨0, ?_, ?_⟩, ?_, fun _ => ?_⟩
      · rw [hr]
        exact hmin.trans_le (min_le_left ..)
      · rw [hr]
        rfl
      · rw [hr]
        have := hmin.trans_le (min_le_right ..)
        dsimp only
        omega
      · rw [hr]
        exact fun _ => heq
      · rw [hr]
        dsimp only
        omega

/-- A file of one block. -/
def oneBlock : VfsNode := ⟨dfsTypeFile, ⟨4096, fun i => if i = 0 then ⟨1, 0⟩ else ⟨0, 0⟩⟩⟩

theorem dfs_read_bounds_one_block : ReadInBounds 0 oneBlock 1 8 1 :=
  (dfs_read_bounds_iff (by decide) (by decide) (by decide) (by decide) (by decide) (by decide)).mpr (by
    unfold ReadFits
    decide)

/-- An extent of `2 ^ 20` blocks has the length 0 in 32 bits. -/
theorem dfs_read_stops_early : ¬ReadInBounds 0 ⟨dfsTypeFile, ⟨2 ^ 32, fun _ => ⟨2 ^ 20, 0⟩⟩⟩ 0 1 1 := by
  intro h
  have hpos := h.positive (by decide)
  exact absurd hpos (by decide)

/-! ## Contents -/

/-- The blocks of the extents in order, cut to the size of the inode. -/
def Inode.content (memory : ℕ → UInt8) (ramdisk : ℕ) (i : Inode) : List UInt8 :=
  ((List.finRange 4).flatMap fun e =>
    (List.range ((i.extents e).length * 4096)).map fun j => memory (ramdisk + (i.extents e).startBlock * 4096 + j)).take
      i.size

/-- The bytes asked for, up to the end of the file, are copied and counted, and at the end there are
none. -/
structure ReadsContent (memory : ℕ → UInt8) (ramdisk : ℕ) (node : VfsNode) (offset size buffer : ℕ) : Prop where
  bytes : offset < node.inode.size →
    (dfsRead ramdisk (some node) offset size buffer).result = (min size (node.inode.size - offset) : ℕ) ∧
    (dfsRead ramdisk (some node) offset size buffer).count = min size (node.inode.size - offset) ∧
    ∀ i < min size (node.inode.size - offset), (node.inode.content memory ramdisk)[offset + i]? =
      some (memory ((dfsRead ramdisk (some node) offset size buffer).source + i))
  finish : offset = node.inode.size → (dfsRead ramdisk (some node) offset size buffer).result = 0

/-- The first extent ends where the file does, or the request ends before, and the bytes of the file
from `offset` on are those that it starts with. -/
structure SameBytes (memory : ℕ → UInt8) (ramdisk : ℕ) (node : VfsNode) (offset size : ℕ) : Prop where
  bytes : offset < node.inode.size → offset < node.extentSize ∧ RangeFits node offset size ∧
    min size (node.extentSize - offset) = min size (node.inode.size - offset) ∧
    min size (node.inode.size - offset) < 2 ^ 31 ∧
    ∀ i < min size (node.inode.size - offset), (node.inode.content memory ramdisk)[offset + i]? =
      some (memory (ramdisk + (node.inode.extents 0).startBlock * 4096 + i))
  finish : offset = node.inode.size → offset = node.extentSize

/-- The file starts with the first extent. -/
theorem content_get (memory : ℕ → UInt8) (ramdisk : ℕ) (inode : Inode) {i : ℕ} (hsize : i < inode.size)
    (hlength : i < (inode.extents 0).length * 4096) :
    (inode.content memory ramdisk)[i]? = some (memory (ramdisk + (inode.extents 0).startBlock * 4096 + i)) := by
  have hlist : List.finRange 4 = 0 :: [1, 2, 3] := by decide
  rw [Inode.content, List.getElem?_take_of_lt hsize, hlist, List.flatMap_cons,
    List.getElem?_append_left (by simpa using hlength), List.getElem?_map, List.getElem?_range hlength, Option.map_some]

/-- A read gives the bytes of the file at the offset exactly when these are the bytes that the code takes instead. -/
theorem dfs_read_content_iff {memory : ℕ → UInt8} (hfile : node.type = dfsTypeFile) (hbuffer : buffer ≠ 0) (hsize : 0 < size)
    (hlt : size < 2 ^ 64) (hoffset : offset < 2 ^ 32) (hinode : node.inode.size < 2 ^ 64)
    (hinside : ∀ e, ramdisk + ((node.inode.extents e).startBlock + (node.inode.extents e).length) * 4096 < 2 ^ 64) :
    ReadsContent memory ramdisk node offset size buffer ↔ SameBytes memory ramdisk node offset size := by
  have hstart : node.startBlock ramdisk = ramdisk + (node.inode.extents 0).startBlock * 4096 := by
    refine Nat.mod_eq_of_lt (lt_of_le_of_lt ?_ (hinside 0))
    exact Nat.add_le_add_left (Nat.mul_le_mul_right _ (Nat.le_add_right ..)) _
  have hE : node.extentSize < 2 ^ 32 := Nat.mod_lt _ (by decide)
  rcases dfsRead_cases ramdisk hfile hbuffer hsize hlt hoffset with ⟨h, hr⟩ | ⟨h, hr⟩ | ⟨h, n, hn, hr, hfit, hwrap⟩
  · constructor
    · rintro ⟨hbytes, hend⟩
      rw [hr] at hbytes hend
      refine ⟨fun hlow => ?_, fun he => ?_⟩
      · have := (hbytes hlow).2.1
        dsimp only at this
        omega
      · have h0 : (-1 : ℤ) = 0 := hend he
        omega
    · rintro ⟨hbytes, hend⟩
      exact ⟨fun hlow => absurd (hbytes hlow).1 (by omega), fun he => absurd (hend he) (by omega)⟩
  · constructor
    · rintro ⟨hbytes, -⟩
      rw [hr] at hbytes
      refine ⟨fun hlow => ?_, fun _ => h⟩
      have := (hbytes hlow).2.1
      dsimp only at this
      omega
    · rintro ⟨hbytes, -⟩
      exact ⟨fun hlow => absurd (hbytes hlow).1 (by omega), fun _ => by rw [hr]⟩
  · constructor
    · rintro ⟨hbytes, hend⟩
      rw [hr] at hbytes hend
      dsimp only at hbytes hend
      refine ⟨fun hlow => ?_, fun he => ?_⟩
      · obtain ⟨h1, h2, h3⟩ := hbytes hlow
        have hrange : RangeFits node offset size := by
          by_contra hno
          obtain ⟨rfl, hbig⟩ := hwrap hno
          omega
        have hmin := hfit hrange
        rw [h2] at h1 hmin
        rw [hstart] at h3
        exact ⟨h, hrange, hmin.symm, toInt_eq_iff.mp h1, h3⟩
      · -- a copy of at least one byte does not return 0
        have hzero := hend he
        by_cases hrange : RangeFits node offset size
        · have hmin := (hfit hrange).trans_le (min_le_right ..)
          unfold toInt at hzero
          split_ifs at hzero <;> omega
        · obtain ⟨rfl, hbig⟩ := hwrap hrange
          unfold toInt at hzero
          split_ifs at hzero <;> omega
    · rintro ⟨hbytes, hend⟩
      refine ⟨fun hlow => ?_, fun he => absurd (hend he) (by omega)⟩
      obtain ⟨-, hrange, hmin, hint, hsame⟩ := hbytes hlow
      have hcount := (hfit hrange).trans hmin
      rw [hr]
      dsimp only
      rw [hcount, hstart]
      exact ⟨toInt_eq_iff.mpr hint, rfl, hsame⟩

/-- The first eight bytes of a file of one block. -/
theorem dfs_read_content_start : ReadsContent (fun a => UInt8.ofNat a) 0 oneBlock 0 8 1 := by
  refine (dfs_read_content_iff (by decide) (by decide) (by decide) (by decide) (by decide) (by decide)
    (by decide)).mpr ⟨fun _ => ⟨by decide, by decide, by decide, by decide, fun i hi => ?_⟩, nofun⟩
  have hlow : i < 8 := hi.trans_le (min_le_left ..)
  rw [Nat.zero_add]
  exact content_get _ _ _ (by change i < 4096; omega) (by change i < 1 * 4096; omega)

/-- The byte at offset 1 is read as the one at 0. -/
theorem dfs_read_ignores_offset : ¬ReadsContent (fun a => UInt8.ofNat a) 0 oneBlock 1 1 1 := by
  intro h
  have hbyte := (h.bytes (by decide)).2.2 0 (by decide)
  have hfile := content_get (fun a => UInt8.ofNat a) 0 oneBlock.inode (i := 1) (by decide) (by decide)
  exact absurd (Option.some.inj (hfile.symm.trans hbyte)) (by decide)

end Reads
end PointerOS
