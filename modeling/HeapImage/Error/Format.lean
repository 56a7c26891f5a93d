import HeapImage.Types.Table
import HeapImage.Region

/-!
# Faults of archive files

* `FileError`: why the file system does not give a file's contents.
* `FormatError`: why a file is no usable archive, from an unreadable file to a bad checksum.
* `Corruption`: what is wrong with a file that claims to be an archive.
-/

namespace HeapImage

/-- A failure reported by the file system. -/
inductive FileError where
  | notFound
  | permissionDenied
  /-- What is no file, nor stands for one, cannot be mapped. -/
  | noDevice
  /-- A name on the way to the file is that of a file. -/
  | notADirectory
  | isADirectory
  | nameTooLong
  /-- The contents of a text file are no text. -/
  | invalidText
  | other (text : String)
  deriving DecidableEq, Repr

/-- What the system says. -/
def FileError.text : FileError → String
  | notFound => "No such file or directory (os error 2)"
  | permissionDenied => "Permission denied (os error 13)"
  | noDevice => "No such device (os error 19)"
  | notADirectory => "Not a directory (os error 20)"
  | isADirectory => "Is a directory (os error 21)"
  | nameTooLong => "File name too long (os error 36)"
  | invalidText => "stream did not contain valid UTF-8"
  | other text => text

/-- A part of an archive file. -/
inductive Section where
  | header
  | image
  | typeTable
  | bitmaps
  | checksum
  /-- The closed region inside the image. -/
  | closedRegion
  /-- The root array inside the open region. -/
  | rootArray
  deriving DecidableEq, Repr

/-- The section's name in messages. -/
def Section.name : Section → String
  | header => "header"
  | image => "image"
  | typeTable => "type table"
  | bitmaps => "bitmaps"
  | checksum => "checksum"
  | closedRegion => "closed region"
  | rootArray => "root array"

/-- What is wrong with the contents of an archive. -/
inductive Corruption where
  | referenceSize (size : Nat)
  | narrowShift (shift : Nat)
  | regionAlignment (alignment : Nat)
  | requestedBase (base : Nat)
  | regionLayout
  | rootOffset (offset : Nat)
  | bitmapSizes
  | sectionLayout
  | extent (part : Section) (offset length : Nat)
  | typeTable (error : TypeTableError)
  | strayBits
  | truncatedObject (offset : Nat)
  | objectLength (typeName : String) (offset length : Nat)
  | objectOverrun (typeName : String) (offset : Nat)
  deriving DecidableEq, Repr

/-- The wording of a corruption. -/
def Corruption.message : Corruption → String
  | referenceSize n => "reference size " ++ toString n
  | narrowShift n => "narrow shift " ++ toString n
  | regionAlignment n => "region alignment " ++ toString n
  | requestedBase n => "requested base " ++ hexNumeral n
  | regionLayout => "region layout"
  | rootOffset n => "root offset " ++ hexNumeral n
  | bitmapSizes => "bitmap sizes"
  | sectionLayout => "section layout"
  | extent part offset length =>
    part.name ++ " extent " ++ hexNumeral offset ++ "+" ++ hexNumeral length
  | typeTable e => "type table: " ++ e.message
  | strayBits => "stray bitmap bits"
  | truncatedObject offset => "truncated header at @" ++ hexNumeral offset
  | objectLength typeName offset length =>
    typeName ++ " at @" ++ hexNumeral offset ++ " has length " ++ toString length
  | objectOverrun typeName offset =>
    typeName ++ " at @" ++ hexNumeral offset ++ " runs past the region end"

/-- Why a file is no usable archive. -/
inductive FormatError where
  | invalidMagic
  | incompatibleVersion (expected actual : Nat)
  | endiannessMismatch
  | checksumMismatch
  | truncated (part : Section)
  | corrupt (fault : Corruption)
  | file (error : FileError)
  deriving DecidableEq, Repr

/-- The wording of an error. -/
def FormatError.message : FormatError → String
  | invalidMagic => "Invalid archive magic number"
  | incompatibleVersion expected actual =>
    "Incompatible archive version (expected " ++ toString expected ++ ", got " ++
      toString actual ++ ")"
  | endiannessMismatch => "Endianness mismatch"
  | checksumMismatch => "Checksum verification failed"
  | truncated part => "Archive truncated in " ++ part.name
  | corrupt fault => "Corrupted archive data: " ++ fault.message
  | file e => "I/O error: " ++ e.text

/-- The messages of the errors behind an error, nearest first. -/
def FormatError.causes : FormatError → List String
  | file e => [e.text]
  | _ => []

end HeapImage
