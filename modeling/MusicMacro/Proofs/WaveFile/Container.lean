import MusicMacro.WaveFile

/-!
# Files in pieces

A piece that stands at a place of a file is read there, whatever stands in front of it and behind
it. So a file that begins with the bytes in front of the samples is taken apart again: its form, its
format and the bytes of its samples are found.

* `Stands` — a piece stands at a place.
* `find_here`, `find_later` — the search for a chunk.
* `decode_preamble` — a file with a preamble and samples is decoded.
* `encode_eq` — such a file is written.
-/

namespace MusicMacro

namespace WaveFile

open LittleEndian (bytes value valueCount signedBytes length_bytes length_signedBytes value_bytes)

/-! ## Pieces -/

/-- The bytes stand at the place in the file. -/
def Stands (file : Bytes) (place : Nat) (piece : List UInt8) : Prop :=
  ∃ before behind, file = (before ++ piece ++ behind).toArray ∧ before.length = place

section Pieces

variable {file : Bytes} {place : Nat} {piece more : List UInt8}

theorem Stands.left (h : Stands file place (piece ++ more)) : Stands file place piece := by
  obtain ⟨before, behind, rfl, rfl⟩ := h
  exact ⟨before, more ++ behind, by simp only [List.append_assoc], rfl⟩

theorem Stands.right (h : Stands file place (piece ++ more)) {n : Nat} (hn : piece.length = n) :
    Stands file (place + n) more := by
  obtain ⟨before, behind, rfl, rfl⟩ := h
  refine ⟨before ++ piece, behind, by simp only [List.append_assoc], ?_⟩
  rw [List.length_append, hn]

theorem slice?_of_stands (h : Stands file place piece) :
    slice? file place piece.length = some piece.toArray := by
  obtain ⟨before, behind, rfl, rfl⟩ := h
  unfold slice?
  have hsize : before.length + piece.length ≤ (before ++ piece ++ behind).toArray.size := by
    simp
  rw [if_pos hsize, List.extract_toArray, List.extract_eq_take_drop, Nat.add_sub_cancel_left,
    List.append_assoc, List.drop_left, List.take_left]

/-- A number is read where its bytes stand. -/
theorem numberAt?_of_stands {width n : Nat} (h : Stands file place (bytes width n))
    (hn : n < valueCount width) : numberAt? file place width = some n := by
  have hslice := slice?_of_stands h
  rw [length_bytes] at hslice
  rw [numberAt?, hslice, Option.map_some, value_bytes, Nat.mod_eq_of_lt hn]

/-- A name is read where its bytes stand. -/
theorem nameAt?_of_stands (h : Stands file place piece) (hl : piece.length = 4) :
    nameAt? file place = some piece := by
  rw [nameAt?, ← hl, slice?_of_stands h, Option.map_some]

end Pieces

/-! ## Chunks -/

section Chunks

variable {file : Bytes} {wanted found : List UInt8} {stop place count : Nat}

theorem header?_of_stands (h : Stands file place (found ++ bytes 4 count)) (hl : found.length = 4)
    (hc : count < valueCount 4) : header? file place = some (found, count) := by
  rw [header?, nameAt?_of_stands h.left hl, numberAt?_of_stands (h.right hl) hc]
  rfl

/-- A chunk with the name that is looked for is found. -/
theorem find_here (hlt : place < stop) (h : header? file place = some (wanted, count))
    (ht : isText wanted = true) :
    find file wanted stop place = .ok (some (place + headerSize, count)) := by
  unfold find
  simp [hlt, h, ht]

/-- A chunk with another name is passed over. -/
theorem find_later (hlt : place < stop) (h : header? file place = some (found, count))
    (ht : isText found = true) (hne : found ≠ wanted) :
    find file wanted stop place = find file wanted stop (after place count) := by
  conv => lhs; unfold find
  simp [hlt, h, ht, hne]

/-- The contents of a chunk that is found are those that stand there. -/
theorem contents_of_find {piece : List UInt8} {missing : WaveFileError}
    (h : find file wanted stop formSize = .ok (some (place, piece.length)))
    (hp : Stands file place piece) : contents file wanted stop missing = .ok piece.toArray := by
  simp only [contents, h, bind, Except.bind, slice?_of_stands hp]
  rfl

end Chunks

/-! ## The preamble -/

theorem isText_wave : isText (name "WAVE") = true := by decide +kernel

theorem isText_fmt : isText (name "fmt ") = true := by decide +kernel

theorem isText_data : isText (name "data") = true := by decide +kernel

theorem fmt_ne_data : name "fmt " ≠ name "data" := by decide +kernel

theorem length_wave : (name "WAVE").length = 4 := by simp [name]

theorem length_riff : (name "RIFF").length = 4 := by simp [name]

theorem length_fmt : (name "fmt ").length = 4 := by simp [name]

theorem length_data : (name "data").length = 4 := by simp [name]

/-- The contents of the format chunk. -/
def formatBytes (channels rate : Nat) : List UInt8 :=
  bytes 2 Coding.integerCode ++ (bytes 2 channels ++ (bytes 4 rate ++
    (bytes 4 (rate * 2 * channels) ++ (bytes 2 (2 * channels) ++ bytes 2 16))))

theorem length_formatBytes (channels rate : Nat) : (formatBytes channels rate).length = 16 := by
  simp [formatBytes, length_bytes]

theorem stands_self (piece : List UInt8) : Stands piece.toArray 0 piece :=
  ⟨[], [], by rw [List.nil_append, List.append_nil], rfl⟩

/-- The format is read from the bytes that are written for it. -/
theorem ofBytes?_formatBytes {channels rate : Nat} (hc : channels < valueCount 2)
    (hr : rate < valueCount 4) :
    Format.ofBytes? (formatBytes channels rate).toArray =
      some ⟨Coding.integerCode, channels, rate, 16⟩ := by
  have hcode := stands_self (formatBytes channels rate)
  have hchannels := hcode.right (length_bytes 2 _)
  have hrate := hchannels.right (length_bytes 2 _)
  have hframes := (hrate.right (length_bytes 4 _)).right (length_bytes 4 _)
  have hdepth := hframes.right (length_bytes 2 _)
  have hsize : ¬(formatBytes channels rate).toArray.size < 16 := by
    rw [List.size_toArray, length_formatBytes]
    omega
  rw [Format.ofBytes?, if_neg hsize, numberAt?_of_stands hcode.left (by decide),
    numberAt?_of_stands hchannels.left hc, numberAt?_of_stands hrate.left hr,
    numberAt?_of_stands hdepth (by decide)]
  rfl

/-- The pieces of a file with a preamble, and where they stand. -/
structure Pieces (file : Bytes) (channels rate : Nat) (data : List UInt8) : Prop where
  count : Stands file 4 (bytes 4 (36 + data.length))
  form : Stands file 8 (name "WAVE")
  formatHeader : Stands file 12 (name "fmt " ++ bytes 4 16)
  format : Stands file 20 (formatBytes channels rate)
  dataHeader : Stands file 36 (name "data" ++ bytes 4 data.length)
  data : Stands file 44 data

theorem pieces_preamble (channels rate : Nat) (data : List UInt8) :
    Pieces (preamble channels rate data.length ++ data).toArray channels rate data := by
  have hriff : Stands (preamble channels rate data.length ++ data).toArray 0
      (name "RIFF" ++ (bytes 4 (36 + data.length) ++ (name "WAVE" ++
        ((name "fmt " ++ bytes 4 16) ++ (formatBytes channels rate ++
          ((name "data" ++ bytes 4 data.length) ++ data)))))) := by
    refine ⟨[], [], ?_, rfl⟩
    simp only [preamble, formatBytes, List.append_assoc, List.nil_append, List.append_nil]
  have hcount := hriff.right length_riff
  have hform := hcount.right (length_bytes 4 _)
  have hformatHeader := hform.right length_wave
  have hformat := hformatHeader.right (by rw [List.length_append, length_fmt, length_bytes])
  have hdataHeader := hformat.right (length_formatBytes channels rate)
  have hdata := hdataHeader.right (by rw [List.length_append, length_data, length_bytes])
  exact ⟨hcount.left, hform.left, hformatHeader.left, hformat.left, hdataHeader.left, hdata⟩

/-- A file with a preamble and samples of 16 bits is decoded. -/
theorem decode_preamble {σ : Type} [Scalar σ] [Dyadic σ] {channels rate : Nat} {data : List UInt8}
    (hc : channels < valueCount 2) (hr : rate < valueCount 4)
    (hs : 36 + data.length < valueCount 4) (master : Option σ) :
    decode (preamble channels rate data.length ++ data).toArray master =
      .ok (.ofData channels rate (Coding.signed16.values data.toArray) master) := by
  have hp := pieces_preamble channels rate data
  generalize (preamble channels rate data.length ++ data).toArray = file at hp ⊢
  have hbody : body file = .ok (4 + (36 + data.length)) := by
    rw [body, numberAt?_of_stands hp.count hs, nameAt?_of_stands hp.form length_wave]
    simp [isText_wave]
  generalize hstop : 4 + (36 + data.length) = stop at hbody
  have hfmt : header? file formSize = some (name "fmt ", 16) :=
    header?_of_stands hp.formatHeader length_fmt (by decide)
  have hfound : find file (name "fmt ") stop formSize =
      .ok (some (20, (formatBytes channels rate).length)) := by
    rw [length_formatBytes]
    exact find_here (by rw [formSize]; omega) hfmt isText_fmt
  have hformat : format file stop = .ok ⟨Coding.integerCode, channels, rate, 16⟩ := by
    simp only [format, contents_of_find hfound hp.format, bind, Except.bind,
      ofBytes?_formatBytes hc hr]
    rfl
  -- the samples are looked for from the first chunk on again, so the format is passed over
  have hdata : contents file (name "data") stop .noData = .ok data.toArray := by
    have hheader : header? file 36 = some (name "data", data.length) :=
      header?_of_stands hp.dataHeader length_data (by omega)
    refine contents_of_find ?_ hp.data
    rw [find_later (by rw [formSize]; omega) hfmt isText_fmt fmt_ne_data]
    exact find_here (by rw [after, formSize, headerSize]; omega) hheader isText_data
  simp only [decode, hbody, hformat, hdata, bind, Except.bind]
  rfl

/-! ## What is written -/

/-- What is written is a preamble, and the bytes of each sample. -/
theorem encode_eq {σ : Type} [Scalar σ] (samples : Array σ) (channels rate : Nat) :
    encode samples channels rate =
      (preamble channels rate (2 * samples.size) ++
        samples.toList.flatMap fun x =>
          signedBytes 2 (quantise (Peak.ofSamples samples).gain x)).toArray := by
  have h (gain : σ) (xs : List σ) (file : List UInt8) :
      xs.foldl (writeSample gain) file.toArray =
        (file ++ xs.flatMap fun x => signedBytes 2 (quantise gain x)).toArray := by
    induction xs generalizing file with
    | nil => simp
    | cons x xs ih =>
      have hwrite : writeSample gain file.toArray x =
          (file ++ signedBytes 2 (quantise gain x)).toArray := by
        simp [writeSample]
      rw [List.foldl_cons, hwrite, ih, List.flatMap_cons, List.append_assoc]
  unfold encode
  dsimp only
  rw [← Array.foldl_toList, h]

end WaveFile

end MusicMacro
