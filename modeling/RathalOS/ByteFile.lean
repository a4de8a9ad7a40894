import RathalOS.ByteMemory

/-!
Random-access files with a position, in the manner of the C standard library.
Beyond its end a file reads as zero, which is what a later write leaves in a
gap; the structure carries that fact. Offsets are 32-bit and `fseek` takes a
signed one, so a seek to 2^31 or further fails and leaves the position alone.
Nothing here depends on a particular program.
-/
namespace RathalOS.ByteFile

open ByteMemory

structure File where
  bytes : Memory
  size : ℕ
  pos : ℕ
  eof : ∀ a, size ≤ a → bytes a = 0

namespace File

/-- The file a list of bytes fills, positioned at its start. -/
def ofList (c : List Byte) : File where
  bytes := fun a => c.getD a 0
  size := c.length
  pos := 0
  eof := fun a ha => by simp [List.getD_eq_getElem?_getD, List.getElem?_eq_none ha]

def empty : File := ofList []

/-- The same contents at another position. -/
def movedTo (fs : File) (p : ℕ) : File := { fs with pos := p }

@[simp] theorem movedTo_bytes (fs : File) (p : ℕ) : (fs.movedTo p).bytes = fs.bytes := rfl
@[simp] theorem movedTo_size (fs : File) (p : ℕ) : (fs.movedTo p).size = fs.size := rfl
@[simp] theorem movedTo_pos (fs : File) (p : ℕ) : (fs.movedTo p).pos = p := rfl
@[simp] theorem movedTo_movedTo (fs : File) (p q : ℕ) :
    (fs.movedTo p).movedTo q = fs.movedTo q := rfl
@[simp] theorem movedTo_self (fs : File) : fs.movedTo fs.pos = fs := rfl

/-- `fseek(fs, offset, SEEK_SET)`, whose offset is converted to a signed long. -/
def fseek (fs : File) (offset : ℕ) : File := if offset < 2 ^ 31 then fs.movedTo offset else fs

/-- `fread(dest, n, 1, fs)`: at the end of the file the rest of dest is kept. -/
def fread (fs : File) (n : ℕ) (dest : Memory) : Memory × File :=
  let k := min n (fs.size - fs.pos)
  (fun i => if i < k then fs.bytes (fs.pos + i) else dest i, fs.movedTo (fs.pos + k))

/-- `fwrite(data, n, 1, fs)`. -/
def fwrite (fs : File) (data : Memory) (n : ℕ) : File where
  bytes := store fs.bytes fs.pos n data
  size := max fs.size (fs.pos + n)
  pos := fs.pos + n
  eof := fun a ha => by
    rw [store_outside _ _ (by omega)]
    exact fs.eof a (by omega)

theorem fseek_of_lt (fs : File) {offset : ℕ} (h : offset < 2 ^ 31) :
    fs.fseek offset = fs.movedTo offset := if_pos h

@[simp] theorem fseek_bytes (fs : File) (offset : ℕ) : (fs.fseek offset).bytes = fs.bytes := by
  unfold fseek
  split <;> rfl

@[simp] theorem fseek_size (fs : File) (offset : ℕ) : (fs.fseek offset).size = fs.size := by
  unfold fseek
  split <;> rfl

theorem fread_snd (fs : File) (n : ℕ) (dest : Memory) :
    (fs.fread n dest).2 = fs.movedTo (fs.pos + min n (fs.size - fs.pos)) := rfl

theorem fread_fst (fs : File) (n : ℕ) (dest : Memory) (i : ℕ) :
    (fs.fread n dest).1 i =
      if i < n ∧ fs.pos + i < fs.size then fs.bytes (fs.pos + i) else dest i := by
  unfold fread
  by_cases hi : i < n ∧ fs.pos + i < fs.size
  · rw [if_pos hi]
    exact if_pos (by omega)
  · rw [if_neg hi]
    exact if_neg (by omega)

/-- A read that stays inside the file replaces exactly n bytes. -/
theorem fread_fst_of_le (fs : File) {n : ℕ} (dest : Memory) (h : fs.pos + n ≤ fs.size) (i : ℕ) :
    (fs.fread n dest).1 i = if i < n then fs.bytes (fs.pos + i) else dest i := by
  rw [fread_fst]
  by_cases hi : i < n
  · rw [if_pos ⟨hi, by omega⟩, if_pos hi]
  · rw [if_neg (fun hin => hi hin.1), if_neg hi]

/-- Into cleared memory every read behaves as if the file went on with zeros. -/
theorem fread_fst_zero (fs : File) (n : ℕ) (i : ℕ) :
    (fs.fread n (fun _ => 0)).1 i = if i < n then fs.bytes (fs.pos + i) else 0 := by
  rw [fread_fst]
  by_cases hi : i < n
  · by_cases hs : fs.pos + i < fs.size
    · rw [if_pos ⟨hi, hs⟩, if_pos hi]
    · rw [if_neg (fun hin => hs hin.2), if_pos hi, fs.eof _ (by omega)]
  · rw [if_neg (fun hin => hi hin.1), if_neg hi]

@[simp] theorem fwrite_bytes (fs : File) (data : Memory) (n : ℕ) :
    (fs.fwrite data n).bytes = store fs.bytes fs.pos n data := rfl

@[simp] theorem fwrite_size (fs : File) (data : Memory) (n : ℕ) :
    (fs.fwrite data n).size = max fs.size (fs.pos + n) := rfl

@[simp] theorem fwrite_pos (fs : File) (data : Memory) (n : ℕ) :
    (fs.fwrite data n).pos = fs.pos + n := rfl

@[simp] theorem ofList_size (c : List Byte) : (ofList c).size = c.length := rfl

@[simp] theorem ofList_pos (c : List Byte) : (ofList c).pos = 0 := rfl

end File

end RathalOS.ByteFile
