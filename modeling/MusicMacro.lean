import MusicMacro.Arrangement
import MusicMacro.Clock
import MusicMacro.Dialect
import MusicMacro.Directive
import MusicMacro.Folder
import MusicMacro.Fragment
import MusicMacro.Main
import MusicMacro.Melody.Command
import MusicMacro.Melody.Performance
import MusicMacro.NoteLength
import MusicMacro.NoteLength.Text
import MusicMacro.Notice
import MusicMacro.Number.Binary
import MusicMacro.Number.Decimal
import MusicMacro.Number.LittleEndian
import MusicMacro.Number.Numeral
import MusicMacro.Number.Scalar
import MusicMacro.Options
import MusicMacro.Options.Argument
import MusicMacro.Percussion.Command
import MusicMacro.Percussion.Performance
import MusicMacro.Phrase
import MusicMacro.Phrase.Capacity
import MusicMacro.Production
import MusicMacro.Proofs.Agreement
import MusicMacro.Proofs.Backpressure
import MusicMacro.Proofs.Ceiling
import MusicMacro.Proofs.Composition
import MusicMacro.Proofs.Directives
import MusicMacro.Proofs.Drift
import MusicMacro.Proofs.Events
import MusicMacro.Proofs.Exact
import MusicMacro.Proofs.Exact.Field
import MusicMacro.Proofs.Extent
import MusicMacro.Proofs.FailedSubmission
import MusicMacro.Proofs.Instrumentation
import MusicMacro.Proofs.Interludes
import MusicMacro.Proofs.Melody.Boundary
import MusicMacro.Proofs.Melody.Grammar
import MusicMacro.Proofs.Melody.Meaning
import MusicMacro.Proofs.Melody.Pitches
import MusicMacro.Proofs.Melody.Reading
import MusicMacro.Proofs.Melody.Spacing
import MusicMacro.Proofs.Melody.Transposition
import MusicMacro.Proofs.Mixing
import MusicMacro.Proofs.NoteLength.Arithmetic
import MusicMacro.Proofs.NoteLength.Dots
import MusicMacro.Proofs.NoteLength.Evaluation
import MusicMacro.Proofs.NoteLength.Fraction
import MusicMacro.Proofs.Order
import MusicMacro.Proofs.Order.Binary64
import MusicMacro.Proofs.Order.Counts
import MusicMacro.Proofs.Order.Infinity
import MusicMacro.Proofs.Order.Products
import MusicMacro.Proofs.Order.Rounding
import MusicMacro.Proofs.Percussion.Boundary
import MusicMacro.Proofs.Percussion.Grammar
import MusicMacro.Proofs.Percussion.Reading
import MusicMacro.Proofs.Percussion.Shadowing
import MusicMacro.Proofs.Pieces
import MusicMacro.Proofs.Placement
import MusicMacro.Proofs.Playing
import MusicMacro.Proofs.PositiveLengths
import MusicMacro.Proofs.Progress
import MusicMacro.Proofs.Recital
import MusicMacro.Proofs.Seamless
import MusicMacro.Proofs.Session
import MusicMacro.Proofs.Sound.Amplitude
import MusicMacro.Proofs.Sound.Contour
import MusicMacro.Proofs.Sound.Playback
import MusicMacro.Proofs.Sound.Tail
import MusicMacro.Proofs.StopRequests
import MusicMacro.Proofs.Superposition
import MusicMacro.Proofs.Text.Boundary
import MusicMacro.Proofs.Text.Length
import MusicMacro.Proofs.Text.Loop
import MusicMacro.Proofs.Text.Places
import MusicMacro.Proofs.Text.Spacing
import MusicMacro.Proofs.Text.Spelling
import MusicMacro.Proofs.Text.Suffix
import MusicMacro.Proofs.Text.Sweep
import MusicMacro.Proofs.Text.Walk
import MusicMacro.Proofs.Timeline.History
import MusicMacro.Proofs.Timeline.Reports
import MusicMacro.Proofs.Timeline.Silence
import MusicMacro.Proofs.Timeline.Stops
import MusicMacro.Proofs.Truncation
import MusicMacro.Proofs.VoiceHistory
import MusicMacro.Proofs.WaveFile.Container
import MusicMacro.Proofs.WaveFile.Levels
import MusicMacro.Proofs.WaveFile.RoundTrip
import MusicMacro.Proofs.WaveFile.Samples
import MusicMacro.Sequencer
import MusicMacro.Setup
import MusicMacro.Sound.Envelope
import MusicMacro.Sound.Instrument
import MusicMacro.Sound.Noise
import MusicMacro.Sound.Oscillator
import MusicMacro.Sound.Recording
import MusicMacro.Sound.Tone
import MusicMacro.Text.Blank
import MusicMacro.Text.CharSet
import MusicMacro.Text.CharSet.Encoding
import MusicMacro.Text.Cursor
import MusicMacro.Text.Digit
import MusicMacro.Text.Pattern
import MusicMacro.Text.Regex
import MusicMacro.Text.Regex.Layout
import MusicMacro.Text.Regex.LiteralTree
import MusicMacro.Text.Regex.Parser
import MusicMacro.Text.Regex.Program
import MusicMacro.Text.Regex.Weight
import MusicMacro.Text.Scan
import MusicMacro.Text.Separated
import MusicMacro.Timeline
import MusicMacro.Transcript
import MusicMacro.Voice
import MusicMacro.WaveFile
import MusicMacro.WaveFile.Chunk
import MusicMacro.WaveFile.Coding
import MusicMacro.WaveFile.Loudness
