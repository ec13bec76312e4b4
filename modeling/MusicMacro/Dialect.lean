import MusicMacro.Melody.Command
import MusicMacro.Percussion.Command

/-!
# Dialects

Two ways to spell music: in ASCII letters, and in the syllables that Japanese sings and drums.
-/

namespace MusicMacro

/-- The two ways to spell music. -/
inductive Dialect
  | standard
  | japanese
deriving DecidableEq, Repr

namespace Dialect

/-! ## ASCII -/

/-- The ASCII tokens of lengths. -/
def standardLength : LengthTokens where
  hold := .literal ['^']
  dot := .literal ['.']
  join := .literal ['&']

/-- The ASCII tokens of melodies: a degree has the letter that names it. -/
def standardMelody : Melody.Tokens where
  length := standardLength
  degree
    | .c => .literal ['c']
    | .d => .literal ['d']
    | .e => .literal ['e']
    | .f => .literal ['f']
    | .g => .literal ['g']
    | .a => .literal ['a']
    | .b => .literal ['b']
  rest := .literal ['r']
  sharp := .anyOf [['#'], ['+']]
  flat := .literal ['-']
  octaveUp := .literal ['>']
  octaveDown := .literal ['<']
  setLength := .literal ['l']

/-- The ASCII tokens of percussion. -/
def standardPercussion : Percussion.Tokens where
  length := standardLength
  rest := .literal ['r']
  setLength := .literal ['l']
  scale := none
  unscale := none

/-! ## Japanese -/

/-- The Japanese tokens of lengths in a melody. Whatever is in use as a sign of a long vowel, dashes
and minus signs among them, is a hold. -/
def japaneseMelodyLength : LengthTokens where
  hold := .anyOf [['\u30fc'], ['\uff5e'], ['\u002d'], ['\u2010'], ['\u2011'], ['\u2012'],
    ['\u2013'], ['\u2014'], ['\u2015'], ['\u2212'], ['\uff70'], ['\u301c']]
  dot := .anyOf [['．'], ['.']]
  join := .literal ['&']

/-- The Japanese tokens of melodies: a degree has its solmization syllable. -/
def japaneseMelody : Melody.Tokens where
  length := japaneseMelodyLength
  degree
    | .c => .literal ['ド']
    | .d => .literal ['レ']
    | .e => .literal ['ミ']
    | .f => .literal ['フ', 'ァ']
    | .g => .literal ['ソ']
    | .a => .literal ['ラ']
    | .b => .literal ['シ']
  rest := .literal ['・']
  sharp := .anyOf [['#'], ['＃']]
  flat := .literal ['♭']
  octaveUp := .anyOf [['↑'], ['^']]
  octaveDown := .anyOf [['↓'], ['_'], ['＿']]
  setLength := .literal ['l']

/-- The Japanese tokens of lengths in percussion. -/
def japanesePercussionLength : LengthTokens where
  hold := .anyOf [['ー'], ['〜']]
  dot := .anyOf [['．'], ['.']]
  join := .literal ['&']

/-- The Japanese tokens of percussion, for rhythms as they are spoken: a syllable is an eighth
note, and a final nasal makes it a quarter note again. -/
def japanesePercussion : Percussion.Tokens where
  length := japanesePercussionLength
  rest := .literal ['・']
  setLength := .literal ['l']
  scale := some .half
  unscale := some (.literal ['ン'])

/-- The tokens of melodies. -/
def melody : Dialect → Melody.Tokens
  | standard => standardMelody
  | japanese => japaneseMelody

/-- The tokens of percussion. -/
def percussion : Dialect → Percussion.Tokens
  | standard => standardPercussion
  | japanese => japanesePercussion

end Dialect

end MusicMacro
