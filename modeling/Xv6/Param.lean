import Mathlib.Data.BitVec

/-!
# Kernel parameters

The constants of `kernel/param.h` and `kernel/fs.h` that the model uses, under their names in
the source.
-/

namespace Xv6

/-- Maximum number of processes. -/
def NPROC : ℕ := 64

/-- Maximum number of threads of a process. -/
def NTHREAD : ℕ := 8

/-- Open files per process. -/
def NOFILE : ℕ := 16

/-- Open files per system. -/
def NFILE : ℕ := 100

/-- Maximum major device number. -/
def NDEV : ℕ := 10

/-- Maximum number of blocks any file-system operation writes. -/
def MAXOPBLOCKS : ℕ := 10

/-- Maximum number of data blocks in the on-disk log. -/
def LOGSIZE : ℕ := MAXOPBLOCKS * 3

/-- Maximum number of binary semaphores. -/
def MAX_BSEM : ℕ := 128

/-- Size of the disk block cache. -/
def NBUF : ℕ := MAXOPBLOCKS * 3

/-- Size of the buffer of a pipe. -/
def PIPESIZE : ℕ := 512

/-- Maximum number of active inodes. -/
def NINODE : ℕ := 50

/-- Block size in bytes. -/
def BSIZE : ℕ := 1024

/-- Direct block addresses of an inode. -/
def NDIRECT : ℕ := 12

/-- Block addresses in the indirect block: `BSIZE / sizeof(uint)`. -/
def NINDIRECT : ℕ := BSIZE / 4

/-- Maximum file size in blocks. -/
def MAXFILE : ℕ := NDIRECT + NINDIRECT

/-- Length of a name in a directory. -/
def DIRSIZ : ℕ := 14

/-- Inodes per block: `BSIZE / sizeof(struct dinode)`. -/
def IPB : ℕ := BSIZE / 64

/-- Bitmap bits per block. -/
def BPB : ℕ := BSIZE * 8

-- literals of `Fin n` for these `n` find a named instance
instance neZero2 : NeZero 2 := ⟨by decide⟩
instance neZero3 : NeZero 3 := ⟨by decide⟩
instance neZero32 : NeZero 32 := ⟨by decide⟩
instance neZero512 : NeZero 512 := ⟨by decide⟩

end Xv6
