import ReleaseTrain.Packaging.Files
import ReleaseTrain.Proofs.CompressedBlock
import ReleaseTrain.Proofs.FileEffects

namespace ReleaseTrain

open Text (Bytes)

namespace Digest

open SecureHash (Registers binary bitsOf)

section

variable {s : Chaining} {bytes : Bytes}

theorem absorb_of_lt (h : bytes.length < blockLength) : absorb s bytes = (s, bytes) := by
  rw [absorb, if_neg (by omega)]

theorem absorb_of_le (h : blockLength ≤ bytes.length) :
    absorb s bytes = absorb (compress s (bytes.take blockLength)) (bytes.drop blockLength) := by
  conv_lhs => rw [absorb, if_pos h]

theorem absorb_append (s : Chaining) (xs ys : Bytes) :
    absorb s (xs ++ ys) = absorb (absorb s xs).1 ((absorb s xs).2 ++ ys) := by
  fun_induction absorb s xs with
  | case1 s xs h ih =>
    rw [absorb_of_le (by simp; omega), List.take_append_of_le_length h,
      List.drop_append_of_le_length h, ih]
  | case2 => rfl

/-- Whole blocks are taken in one after the other. -/
theorem registers_absorb (s : Chaining) {n : Nat} (h : bytes.length = blockLength * n) :
    (absorb s bytes).1.registers = (List.range n).foldl
      (fun r i ↦ SecureHash.compress r (SecureHash.block (bitsOf bytes) i)) s.registers := by
  induction n generalizing s bytes with
  | zero =>
    rw [absorb_of_lt (by rw [h]; decide)]
    rfl
  | succ n ih =>
    have hle : blockLength ≤ bytes.length := by
      rw [h]
      exact Nat.le_mul_of_pos_right _ n.succ_pos
    have hfirst : SecureHash.block (bitsOf bytes) 0 = bitsOf (bytes.take blockLength) := by
      rw [SecureHash.bitsOf_take]
      rfl
    have hnext (i : Nat) : SecureHash.block (bitsOf bytes) (i + 1) =
        SecureHash.block (bitsOf (bytes.drop blockLength)) i := by
      rw [SecureHash.bitsOf_drop, SecureHash.block, SecureHash.block, List.drop_drop]
      congr 2
      simp only [blockLength]
      omega
    have hrest : (bytes.drop blockLength).length = blockLength * n := by
      rw [List.length_drop, h, Nat.mul_succ, Nat.add_sub_cancel]
    rw [absorb_of_le hle, ih _ hrest, registers_compress _ (by rw [List.length_take]; omega),
      List.range_succ_eq_map, List.foldl_cons, List.foldl_map, hfirst]
    simp only [Nat.succ_eq_add_one, hnext]

end

/-- A hasher that has taken in a content. -/
def Hasher.of (content : Bytes) : Hasher :=
  ⟨(absorb .start content).1, (absorb .start content).2, content.length⟩

theorem Hasher.update_of (content piece : Bytes) :
    (Hasher.of content).update piece = .of (content ++ piece) := by
  rw [of, of, absorb_append, List.length_append]
  rfl

theorem Hasher.foldl_update (content : Bytes) (chunks : List Bytes) :
    chunks.foldl Hasher.update (.of content) = .of (content ++ chunks.flatten) := by
  induction chunks generalizing content with
  | nil => simp
  | cons piece chunks ih =>
    rw [List.foldl_cons, update_of, ih, List.flatten_cons, List.append_assoc]

/-- All that matters of pieces is what they are together. -/
theorem ofPieces_eq (chunks : List Bytes) : ofPieces chunks =
    (absorb .start (chunks.flatten ++ padding chunks.flatten.length)).1.text := by
  have hempty : ({} : Hasher) = .of [] := by
    rw [Hasher.of, absorb_of_lt (by decide)]
    rfl
  rw [ofPieces, hempty, Hasher.foldl_update, List.nil_append, absorb_append]
  rfl

theorem flatten_pieces {size : Nat} (hsize : 0 < size) (content : Bytes) :
    (pieces size content).flatten = content := by
  fun_induction pieces size content with
  | case1 content h =>
    rcases h with rfl | rfl
    · rfl
    · exact absurd hsize (Nat.lt_irrefl 0)
  | case2 content _ ih => rw [List.flatten_cons, ih, List.take_append_drop]

theorem mem_pieces {size : Nat} {content piece : Bytes} (h : piece ∈ pieces size content) :
    piece ≠ [] ∧ piece.length ≤ size := by
  fun_induction pieces size content with
  | case1 => exact absurd h List.not_mem_nil
  | case2 content hne ih =>
    rcases List.mem_cons.1 h with rfl | h
    · refine ⟨fun hnil ↦ hne ?_, by simp⟩
      exact (List.take_eq_nil_iff.1 hnil).symm
    · exact ih h

theorem zeros_eq (m : Nat) : SecureHash.zeros (8 * m) = 7 + 8 * ((119 - m % 64) % 64) := by
  rw [SecureHash.zeros, Nat.find_eq_iff]
  constructor
  · omega
  · intro n hn
    omega

theorem bitsOf_zeros (n : Nat) : bitsOf (List.replicate n 0) = List.replicate (8 * n) false := by
  induction n with
  | zero => rfl
  | succ n ih =>
    rw [List.replicate_succ, SecureHash.bitsOf_cons, ih, Nat.mul_succ, Nat.add_comm,
      List.replicate_add]
    rfl

theorem bitsOf_lengthBytes (m : Nat) : bitsOf (lengthBytes m) = binary 64 (8 * m) := by
  have hbyte (n : Nat) : binary 8 (UInt8.ofNat n).toNat = binary 8 n := by
    rw [UInt8.toNat_ofNat', SecureHash.binary_mod (Nat.le_refl 8)]
  simp only [lengthBytes, List.map_cons, List.map_nil, SecureHash.bitsOf_cons,
    SecureHash.bitsOf_nil, hbyte, Nat.shiftRight_eq_div_pow, Nat.pow_zero, Nat.div_one,
    List.append_nil, ← SecureHash.binary_add, Nat.reduceAdd]

theorem padded_bitsOf (content : Bytes) :
    SecureHash.padded (bitsOf content) = bitsOf (content ++ padding content.length) := by
  have hmark : binary 8 (0x80 : UInt8).toNat = true :: List.replicate 7 false := rfl
  rw [SecureHash.padded, SecureHash.length_bitsOf, zeros_eq, padding, SecureHash.bitsOf_append,
    List.cons_append, SecureHash.bitsOf_cons, SecureHash.bitsOf_append, bitsOf_zeros,
    bitsOf_lengthBytes, hmark, List.replicate_add]
  simp only [List.append_assoc, List.cons_append]

theorem exists_length_padding (content : Bytes) :
    ∃ n, (content ++ padding content.length).length = blockLength * n := by
  refine ⟨(content.length + 1 + (119 - content.length % 64) % 64 + 8) / 64, ?_⟩
  simp only [padding, lengthBytes, List.length_append, List.length_cons, List.length_replicate,
    List.length_map, List.length_nil, blockLength]
  omega

theorem hash_bitsOf (content : Bytes) : SecureHash.hash (bitsOf content) =
    (absorb .start (content ++ padding content.length)).1.registers := by
  obtain ⟨n, hn⟩ := exists_length_padding content
  have hblocks : (SecureHash.padded (bitsOf content)).length / 512 = n := by
    rw [padded_bitsOf, SecureHash.length_bitsOf, hn]
    simp only [blockLength]
    omega
  rw [SecureHash.hash, hblocks, padded_bitsOf, registers_absorb _ hn, start_registers]

theorem hexDigit_eq {d : Nat} (h : d < 16) : hexDigit d = Nat.digitChar d := by
  revert d
  decide

theorem wordText_eq (w : Word) : wordText w = SecureHash.hexadecimal 8 w.toBitVec.toNat := by
  have hshifts : [28, 24, 20, 16, 12, 8, 4, 0] = (List.range 8).map fun i ↦ 4 * (8 - 1 - i) := rfl
  rw [wordText, hshifts, List.map_map]
  refine List.map_congr_left fun i _ ↦ ?_
  rw [Function.comp_apply, hexDigit_eq (Nat.mod_lt _ (by decide)), Nat.shiftRight_eq_div_pow,
    Nat.pow_mul]
  rfl

theorem toList_text (s : Chaining) : s.text.toList =
    SecureHash.hexadecimal 64
      (SecureHash.number (s.registers.words.flatMap fun w ↦ binary 32 w.toNat)) := by
  have hwords : s.registers.words = s.words.map UInt32.toBitVec := rfl
  have hlength : 8 * s.registers.words.length = 64 := rfl
  rw [← hlength, SecureHash.hexadecimal_words, hwords, List.flatMap_map, Chaining.text,
    String.toList_ofList, funext wordText_eq]

theorem ofPieces_eq_text (chunks : List Bytes) :
    ofPieces chunks = SecureHash.text chunks.flatten := by
  rw [ofPieces_eq, SecureHash.text, SecureHash.digest, hash_bitsOf, ← toList_text,
    String.ofList_toList]

theorem ofFile_eq_text (content : Bytes) : ofFile content = SecureHash.text content := by
  rw [ofFile, ofPieces_eq_text, flatten_pieces (by decide)]

/-- However a content is cut into pieces, its digest is the standard's one of the whole. A file is
taken in by pieces of at most 8192 bytes, and that fails only where it cannot be read. The standard
ends at contents of `2 ^ 61` bytes; from there on the number of bits is taken modulo `2 ^ 64`. -/
theorem streamed_digest {σ : Type} :
    (∀ chunks : List Bytes, ofPieces chunks = SecureHash.text chunks.flatten) ∧
      (∀ content, (pieces 8192 content).flatten = content ∧
        ∀ piece ∈ pieces 8192 content, piece ≠ [] ∧ piece.length ≤ 8192) ∧
      ∀ (path : Path) (w : World σ), Session.digest path w =
        match FileSystem.content path.bytes w.files with
        | .ok held _ => .ok (SecureHash.text held.toBytes) w
        | .error failure _ => .error (.io failure) w := by
  refine ⟨ofPieces_eq_text, fun content ↦ ⟨flatten_pieces (by decide) content,
    fun _ ↦ mem_pieces⟩, fun path w ↦ ?_⟩
  have hremaining : FileSystem.remaining (FileSystem.read path.bytes w.files) = w.files :=
    FileSystem.remaining_read path.bytes
  change EStateM.bind (Session.read path) _ w = _
  unfold EStateM.bind Session.read Session.onFiles
  rw [FileSystem.read_eq] at hremaining ⊢
  generalize FileSystem.content path.bytes w.files = reading at hremaining ⊢
  cases reading with
  | ok held files =>
    obtain rfl : files = w.files := hremaining
    exact congrArg (fun text ↦ EStateM.Result.ok text w) (ofFile_eq_text held.toBytes)
  | error failure files =>
    obtain rfl : files = w.files := hremaining
    rfl

theorem streamed_digest_rehearsed :
    let message := Text.encode "abcdbcdecdefdefgefghfghighijhijkijkljklmklmnlmnomnopnopq"
    let digest := "248d6a61d20638b8e5c026930c3e6039a33ce45964ff2167f6ecedd419db06c1"
    let w : World Unit := ⟨{ entries := [([[97]], .file (.bytes message) 0o755)] }, (), []⟩
    SecureHash.text message = digest ∧
      message ∈ pieces 8192 message ∧ (message ≠ [] ∧ message.length ≤ 8192) ∧
      Session.digest ⟨"/a"⟩ w = .ok digest w := by
  intro message digest w
  have hdigest : ofPieces [message.take 3, message.drop 3] = digest := by decide +kernel
  have hmember : message ∈ pieces 8192 message := by decide +kernel
  have hresolve : w.files.resolve (⟨"/a"⟩ : Path).bytes true =
      .ok (.found [[97]] (.file (.bytes message) 0o755)) := by
    have hroute : FileSystem.Route.ofBytes (⟨"/a"⟩ : Path).bytes = ⟨true, [[97]], false⟩ := by
      decide
    have hget : w.files.get? [[97]] = some (.file (.bytes message) 0o755) :=
      (if_neg (List.cons_ne_nil _ _)).trans List.lookup_cons_self
    refine FileSystem.resolve_eq_ok.2 ⟨by decide, ?_⟩
    rw [hroute]
    exact (FileSystem.walk_into rfl ⟨by decide, by decide, by decide⟩ hget (by simp)).trans
      (FileSystem.walk_nil hget)
  have hcontent : FileSystem.content (⟨"/a"⟩ : Path).bytes w.files =
      .ok (.bytes message) w.files := by
    rw [FileSystem.content_eq, hresolve]
  obtain ⟨hchunks, hpieces, hfile⟩ := streamed_digest (σ := Unit)
  have htext : SecureHash.text message = digest := by
    rw [← hdigest, hchunks]
    simp
  refine ⟨htext, hmember, (hpieces message).2 message hmember, ?_⟩
  rw [hfile, hcontent]
  exact congrArg (fun text ↦ EStateM.Result.ok text w) htext

end Digest

end ReleaseTrain
