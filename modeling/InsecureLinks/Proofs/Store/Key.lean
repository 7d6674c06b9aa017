import Mathlib
import InsecureLinks.Proofs.Digest.Sha256
import InsecureLinks.Proofs.Store.Fingerprint

/-!
# What a key stands for

Three messages are hashed for a key: the target, the files after the digest of the target, and the
whitelist.  Digests have one length, so the digests of the files and of the whitelist are got back
from a key, and where no two of the messages have the same digest, so are the messages
(`Subject.messages_of_key_eq`).

If all files can be read and hold no zero, and the whitelists have been read from texts, the
messages say what was hashed: the files by root, path and content, the entries, and the size limit
(`Subject.inputs_of_key_eq`).  The roots and patterns of the target are not among them.  They are
joined by zeros and may hold zeros themselves.
-/

namespace InsecureLinks.Fingerprint

open Utf8 (Bytes)

/-! ## Messages -/

/-- What a key is made from: the files that were found in a tree, and how they are to be scanned. -/
structure Subject where
  tree : FileTree
  here : Place
  target : Target
  whitelist : Whitelist
  maxFileSize : ℤ
  found : List SourceFile

namespace Subject

variable {s s' : Subject}

/-- The message that is hashed for the target. -/
def targetBytes (s : Subject) : Bytes :=
  Utf8.encode (Text.join [separator] (targetFields s.target s.maxFileSize))

/-- The message that is hashed for the files. -/
def filesBytes (s : Subject) : Bytes :=
  Fingerprint.filesBytes s.tree s.here (Sha256.hex s.targetBytes) s.found

/-- The message that is hashed for the whitelist. -/
def whitelistBytes (s : Subject) : Bytes :=
  Utf8.encode (s.whitelist.entries.flatMap entryText)

/-- The key under which the report of a scan is kept. -/
def key (s : Subject) : Text :=
  Fingerprint.key Sha256.hex s.tree s.here s.target s.whitelist s.maxFileSize s.found

theorem key_eq (s : Subject) :
    s.key = Sha256.hex s.filesBytes ++ ':' :: Sha256.hex s.whitelistBytes := rfl

/-- Whether no two different messages that are hashed for the same part of two keys have the same
digest. -/
structure NoCollision (s s' : Subject) : Prop where
  target : Sha256.hex s.targetBytes = Sha256.hex s'.targetBytes → s.targetBytes = s'.targetBytes
  files : Sha256.hex s.filesBytes = Sha256.hex s'.filesBytes → s.filesBytes = s'.filesBytes
  whitelist : Sha256.hex s.whitelistBytes = Sha256.hex s'.whitelistBytes →
    s.whitelistBytes = s'.whitelistBytes

/-- What was laid out for the hash is got back from a key. -/
theorem messages_of_key_eq (hkey : s.key = s'.key) (hcollision : s.NoCollision s') :
    Text.join [separator] (targetFields s.target s.maxFileSize) =
        Text.join [separator] (targetFields s'.target s'.maxFileSize) ∧
      s.found.flatMap (fileBytes s.tree s.here) = s'.found.flatMap (fileBytes s'.tree s'.here) ∧
      s.whitelist.entries.flatMap entryText = s'.whitelist.entries.flatMap entryText := by
  rw [key_eq, key_eq] at hkey
  obtain ⟨hfiles, hwhitelist⟩ := List.append_inj hkey (by rw [Sha256.length_hex, Sha256.length_hex])
  have hfiles := hcollision.files hfiles
  have hwhitelist := hcollision.whitelist (List.cons.inj hwhitelist).2
  -- The message of the files begins with a digest again.
  rw [filesBytes, filesBytes, Fingerprint.filesBytes, Fingerprint.filesBytes] at hfiles
  obtain ⟨htarget, hfiles⟩ := List.append_inj hfiles
    (by rw [Sha256.length_encode_hex, Sha256.length_encode_hex])
  have htarget := hcollision.target (Utf8.encode_injective htarget)
  exact ⟨Utf8.encode_injective htarget, hfiles, Utf8.encode_injective hwhitelist⟩

theorem key_eq_of_messages
    (htarget : Text.join [separator] (targetFields s.target s.maxFileSize) =
      Text.join [separator] (targetFields s'.target s'.maxFileSize))
    (hfiles : s.found.flatMap (fileBytes s.tree s.here) =
      s'.found.flatMap (fileBytes s'.tree s'.here))
    (hwhitelist : s.whitelist.entries.flatMap entryText =
      s'.whitelist.entries.flatMap entryText) : s.key = s'.key ∧ s.NoCollision s' := by
  have htarget : s.targetBytes = s'.targetBytes := congrArg Utf8.encode htarget
  have hfiles : s.filesBytes = s'.filesBytes := by
    rw [filesBytes, filesBytes, Fingerprint.filesBytes, Fingerprint.filesBytes, htarget, hfiles]
  have hwhitelist : s.whitelistBytes = s'.whitelistBytes := congrArg Utf8.encode hwhitelist
  exact ⟨by rw [key_eq, key_eq, hfiles, hwhitelist], fun _ => htarget, fun _ => hfiles,
    fun _ => hwhitelist⟩

/-! ## What is hashed -/

/-- Whether every file can be read, and neither its name nor its content holds a zero. -/
structure IsClear (s : Subject) : Prop where
  lacks : ∀ f ∈ s.found, f.Lacks separator
  reads : ∀ f ∈ s.found, ∃ b, s.tree.read s.here f.path = .ok b ∧ 0 ∉ b

theorem IsClear.exists_contentBytes (h : s.IsClear) {f : SourceFile} (hf : f ∈ s.found) :
    s.tree.read s.here f.path = .ok (contentBytes s.tree s.here f) ∧
      0 ∉ contentBytes s.tree s.here f := by
  obtain ⟨b, hread, hzero⟩ := h.reads f hf
  rw [contentBytes, hread]
  exact ⟨rfl, hzero⟩

/-- The files are got back with their bytes. -/
theorem IsClear.files_inj (h : s.IsClear) (h' : s'.IsClear)
    (hfiles : s.found.flatMap (fileBytes s.tree s.here) =
      s'.found.flatMap (fileBytes s'.tree s'.here)) :
    s.found = s'.found ∧ ∀ f ∈ s.found, ∃ b,
      s.tree.read s.here f.path = .ok b ∧ s'.tree.read s'.here f.path = .ok b := by
  obtain ⟨hfound, hcontent⟩ := Fingerprint.files_inj h.lacks h'.lacks
    (fun f hf => isUnframed_of_not_mem (h.exists_contentBytes hf).2 _)
    (fun f hf => isUnframed_of_not_mem (h'.exists_contentBytes hf).2 _) hfiles
  refine ⟨hfound, fun f hf => ⟨_, (h.exists_contentBytes hf).1, ?_⟩⟩
  rw [hcontent f hf]
  exact (h'.exists_contentBytes (hfound ▸ hf)).1

/-- Scans with the same key, whose digests do not collide, are of the same files in the same order,
with the same bytes in each, and have the same entries in the same order and the same size limit. -/
theorem inputs_of_key_eq (h : s.IsClear) (h' : s'.IsClear) (hread : s.whitelist.IsRead)
    (hread' : s'.whitelist.IsRead) (hkey : s.key = s'.key) (hcollision : s.NoCollision s') :
    s.found = s'.found ∧
      (∀ f ∈ s.found, ∃ b,
        s.tree.read s.here f.path = .ok b ∧ s'.tree.read s'.here f.path = .ok b) ∧
      s.whitelist.entries = s'.whitelist.entries ∧ s.maxFileSize = s'.maxFileSize := by
  obtain ⟨htarget, hfiles, hentries⟩ := messages_of_key_eq hkey hcollision
  obtain ⟨hfound, hbytes⟩ := h.files_inj h' hfiles
  exact ⟨hfound, hbytes, written_entries_inj (fun e he => hread.isWritten he)
    (fun e he => hread'.isWritten he) hentries, maxFileSize_inj htarget⟩

/-- A folder `r` with a file `a`, at a place. -/
def folderAt (place : Place) : FileTree :=
  ⟨[(place ++ ["r".toList], .folder),
    (place ++ ["r".toList, "a".toList], .file (.bytes (Utf8.encode insecure)))], [], []⟩

/-- A scan of the folder where it is the topmost one. -/
def topmost : Subject where
  tree := folderAt []
  here := []
  target := ⟨["r".toList], [], [], defaultBuildDir⟩
  whitelist := ⟨[⟨"r/a".toList, some 1, none⟩, ⟨"b\x00c".toList, none, none⟩], [], []⟩
  maxFileSize := 10
  found := [⟨"r".toList, "a".toList⟩]

/-- A scan of the folder from within another one, with the build folder and the entries spelled in
another way. -/
def beneath : Subject where
  tree := (folderAt ["s".toList]).put ["s".toList] .folder
  here := ["s".toList]
  target := ⟨["r".toList], [], [], "/build/".toList⟩
  whitelist := ⟨[⟨"r/a".toList, some 1, none⟩, ⟨"b\x00c".toList, none, none⟩], "w".toList, []⟩
  maxFileSize := 10
  found := [⟨"r".toList, "a".toList⟩]

theorem read_topmost : topmost.tree.read topmost.here (SourceFile.path ⟨"r".toList, "a".toList⟩) =
    .ok (Utf8.encode insecure) := by cbv

theorem read_beneath : beneath.tree.read beneath.here (SourceFile.path ⟨"r".toList, "a".toList⟩) =
    .ok (Utf8.encode insecure) := by cbv

theorem isClear_of_read (hfound : s.found = [⟨"r".toList, "a".toList⟩])
    (hread : s.tree.read s.here (SourceFile.path ⟨"r".toList, "a".toList⟩) =
      .ok (Utf8.encode insecure)) : s.IsClear := by
  refine ⟨fun f hf => ?_, fun f hf => ?_⟩
  · rw [hfound, List.mem_singleton] at hf
    rw [hf]
    exact ⟨by decide, by decide⟩
  · rw [hfound, List.mem_singleton] at hf
    rw [hf]
    exact ⟨_, hread, by decide⟩

theorem isRead_topmost : topmost.whitelist.IsRead :=
  ⟨[], "r/a:1\nb\x00c".toList, by cbv⟩

theorem isRead_beneath : beneath.whitelist.IsRead :=
  ⟨"w".toList, "# r\r./r//a: 01 \n\n.\\b\x00c".toList, by cbv⟩

theorem key_topmost_eq_beneath : topmost.key = beneath.key ∧ topmost.NoCollision beneath := by
  refine key_eq_of_messages (by rfl) ?_ rfl
  exact List.flatMap_congr fun f hf => fileBytes_congr <| by
    rw [List.mem_singleton.1 hf, read_topmost, read_beneath]

theorem inputs_of_key_eq_beneath :
    topmost.key = beneath.key ∧ topmost.found = beneath.found ∧
      (∀ f ∈ topmost.found, ∃ b, topmost.tree.read topmost.here f.path = .ok b ∧
        beneath.tree.read beneath.here f.path = .ok b) ∧
      topmost.whitelist.entries = beneath.whitelist.entries ∧
      topmost.maxFileSize = beneath.maxFileSize := by
  obtain ⟨hkey, hcollision⟩ := key_topmost_eq_beneath
  exact ⟨hkey, inputs_of_key_eq (isClear_of_read rfl read_topmost) (isClear_of_read rfl read_beneath)
    isRead_topmost isRead_beneath hkey hcollision⟩

end Subject

end InsecureLinks.Fingerprint
