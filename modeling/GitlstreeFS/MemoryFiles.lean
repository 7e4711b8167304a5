import GitlstreeFS.Cpio.Hardlink
import GitlstreeFS.Githubfs.Handles
import GitlstreeFS.Gitlstree.Handles
import GitlstreeFS.Ninjafs.Model

/-!
# Reading files whose content is in memory

Six files are read from a content that is in memory as a whole, by copies of the same lines. Each of them
returns what there is of the content at an offset (`MemoryFile.serves`); so the content comes out of reading on,
whatever the sizes of the buffers are (`MemoryFile.reads_content`).
-/

namespace GitlstreeFS

open Buffer

/-- `StatusHandler::Read` of `scoped_timer.cc`, where `message` is `message_`. -/
def StatusHandler.read (message : Str) (size : ℕ) (offset : ℤ) : Option (ℤ × Str) :=
  readString message size offset

/-- A file, as it is between two reads. -/
inductive MemoryFile where
  /-- `gitlstree::FileElement`, where `got` is what the cache returns if it is asked. -/
  | gitlstree (shows : ℕ → Option Str) (got memory : Option ℕ)
  /-- `githubfs::FileElement` -/
  | githubfs (shows : ℕ → Option Str) (memory : Option ℕ)
  | ninjaLog (log : Str)
  | ninjaTarget (s : Ninjafs.State)
  /-- `StatusHandler` -/
  | status (message : Str)
  /-- `CpioFile`, in the archive `m`, where `target` is `*hardlink_map[key]`. -/
  | cpio (m : Str) (target : Cpio.HardlinkKey → Except Cpio.FileFault ℤ) (f : Cpio.CpioFile)

namespace MemoryFile

/-- `Read`: the value, what is written to `target`, and the file behind it. -/
def read (size : ℕ) (offset : ℕ) : MemoryFile → Option ((ℤ × Str) × MemoryFile)
  | .gitlstree shows got memory =>
    (Gitlstree.read shows size offset got memory).toOption.map fun r =>
      ((r.1.value, r.1.target), .gitlstree shows got r.2)
  | .githubfs shows memory =>
    (Githubfs.read shows size offset memory).map fun r => (r, .githubfs shows memory)
  | .ninjaLog log => (Ninjafs.NinjaLog.read log size offset).map fun r => (r, .ninjaLog log)
  | .ninjaTarget s => (Ninjafs.NinjaTarget.read s size offset).map fun r => (r, .ninjaTarget s)
  | .status message => (StatusHandler.read message size offset).map fun r => (r, .status message)
  | .cpio m target f =>
    (f.readReturned m target size offset).toOption.map fun r => (r.1, .cpio m target r.2)

/-- The content `c` is loaded. -/
def Has (c : Str) : MemoryFile → Prop
  | .gitlstree shows got memory => ∃ p, (memory <|> got) = some p ∧ shows p = some c
  | .githubfs shows memory => ∃ p, memory = some p ∧ shows p = some c
  | .ninjaLog log => log = c
  | .ninjaTarget s => s.buf = some c
  | .status message => message = c
  | .cpio m target f => ∃ d f', f.resolveHardlink m target = .ok (d, f') ∧ Cpio.contents m d = .ok c

/-- Something to read from. -/
def reader : Reader UInt8 :=
  ⟨MemoryFile, fun f size offset => f.read size offset⟩

end MemoryFile

variable {m : Str} {target : Cpio.HardlinkKey → Except Cpio.FileFault ℤ} {c : Str} {size offset : ℕ}

/-! ### The copies -/

namespace Cpio.CpioFile

/-- What a `CpioFile` copies is said without the number that it returns, too. -/
theorem read_eq_map (f : CpioFile) (size offset : ℕ) :
    f.read m target size offset = (f.readReturned m target size offset).map fun r => (r.1.2, r.2) := by
  rw [read, readReturned]
  cases f.resolveHardlink m target with
  | error e => rfl
  | ok r =>
    rw [ok_bind, ok_bind]
    dsimp only
    cases lift (contentsView m r.1) with
    | error e => rfl
    | ok view =>
      rw [ok_bind, ok_bind]
      split
      · generalize lift (copy m view _ offset) = copied
        cases copied <;> rfl
      · rfl

theorem readReturned_eq {d : ℤ} {f f' : CpioFile} (h_resolve : f.resolveHardlink m target = .ok (d, f'))
    (h_contents : contents m d = .ok c) (h_size : size < 0x100000000) (h_offset : offset < 0x8000000000000000) :
    f.readReturned m target size offset
      = .ok (((count c size offset : ℤ), (c.drop offset).take (count c size offset)), f') := by
  obtain ⟨a, h_view, h_bytes, -, h_lt⟩ := of_contents h_contents
  have h_off : ((c.length : ℕ) : ℤ).bmod 0x10000000000000000 = c.length :=
    Int.bmod_eq_of_le (by omega) (by omega)
  rw [readReturned, h_resolve, ok_bind]
  dsimp only
  rw [h_view, lift, ok_bind]
  dsimp only
  rw [h_off, Nat.mod_eq_of_lt (by omega)]
  by_cases h_end : offset < c.length
  · -- the size is cut to what there is
    have h_count : (if c.length < offset + size then c.length - offset else size) = count c size offset := by
      rw [count]
      split <;> omega
    have h_ssize : (count c size offset : ℤ).bmod 0x10000000000000000 = count c size offset := by
      refine Int.bmod_eq_of_le (by omega) ?_
      rw [count]
      omega
    have h_min : min (count c size offset) (c.length - offset) = count c size offset :=
      Nat.min_eq_left (Nat.min_le_right _ _)
    have h_copy : copy m (a, c.length) (count c size offset) offset
        = .ok ((c.drop offset).take (count c size offset)) := by
      rw [copy, bytes_part h_bytes (by omega)]
    rw [if_pos (by omega), h_count, h_copy, lift, ok_bind, h_ssize]
    rfl
  · have h_zero : count c size offset = 0 := by
      rw [count]
      omega
    rw [if_neg (by omega), h_zero, List.take_zero]
    rfl

end Cpio.CpioFile

namespace MemoryFile

/-- **Each of the files returns what there is at an offset.** -/
theorem serves (c : Str) : Serves reader (Has c) c 0x100000000 0x8000000000000000 := by
  intro f h_has size h_size offset h_offset
  -- neither of the limits lets the sum wrap around
  have h_sum : offset + size < 0x10000000000000000 := by omega
  have h_string := readString_eq (s := c) h_sum
  have h_memory : Cache.readMemory c size offset = some (Cache.slice c size offset) := Cache.readMemory_eq h_sum
  change ∃ f' : MemoryFile, f'.Has c ∧ MemoryFile.read size offset f
    = some (((count c size offset : ℤ), (c.drop offset).take (count c size offset)), f')
  cases f with
  | gitlstree shows got memory =>
    -- the mapping is looked up, if it was not there before
    obtain ⟨p, h_p, h_shows⟩ := h_has
    refine ⟨.gitlstree shows got (some p), ⟨p, rfl, h_shows⟩, ?_⟩
    rw [read, Gitlstree.read_eq_ok h_p h_shows h_memory, Cache.length_slice, Cache.slice_eq_take]
    rfl
  | githubfs shows memory =>
    obtain ⟨p, rfl, h_shows⟩ := h_has
    refine ⟨.githubfs shows (some p), ⟨p, rfl, h_shows⟩, ?_⟩
    rw [read, Githubfs.read, h_shows, Option.bind_eq_bind, Option.bind_some, h_memory, Option.bind_some,
      Cache.length_slice, Cache.slice_eq_take]
    rfl
  | ninjaLog log =>
    obtain rfl := h_has
    exact ⟨.ninjaLog log, rfl, congrArg (Option.map fun r => (r, ninjaLog log)) h_string⟩
  | ninjaTarget s =>
    refine ⟨.ninjaTarget s, h_has, ?_⟩
    have h_buf : s.buf = some c := h_has
    rw [read, Ninjafs.NinjaTarget.read, h_buf]
    exact congrArg (Option.map fun r => (r, ninjaTarget s)) h_string
  | status message =>
    obtain rfl := h_has
    exact ⟨.status message, rfl, congrArg (Option.map fun r => (r, status message)) h_string⟩
  | cpio m target f =>
    -- what has been found is found again
    obtain ⟨d, f', h_resolve, h_contents⟩ := h_has
    obtain ⟨h_again, -⟩ := Cpio.CpioFile.resolveHardlink_again h_resolve
    refine ⟨.cpio m target f', ⟨d, f', h_again, h_contents⟩, ?_⟩
    rw [read, Cpio.CpioFile.readReturned_eq h_resolve h_contents h_size h_offset]
    rfl

/-- **Reading on gives the content**, and each single read what there is at its offset. -/
theorem reads_content (f : MemoryFile) (c : Str) (h : f.Has c) (h_length : c.length < 0x8000000000000000) :
    ReadsAs reader f c 0x100000000 0x8000000000000000 :=
  (serves c).readsAs h_length h

/-- The log of a build. -/
theorem reads_content_log : ReadsAs reader (ninjaLog [111, 107]) [111, 107] 0x100000000 0x8000000000000000 :=
  reads_content (ninjaLog [111, 107]) [111, 107] rfl (by decide)

example : reader.readOn [1, 4096, 4096] (ninjaLog [111, 107]) 0 = some ([111, 107], true) := by decide

end MemoryFile

end GitlstreeFS
