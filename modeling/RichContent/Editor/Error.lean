/-
What can go wrong with an editor. A failure of the host application is passed
on with its own words.
-/
import RichContent.Selector.Error

namespace RichContent

/-- A failure of the host application, in its own words. -/
abbrev Failure := Text

inductive Misconfiguration where
  | noResolver
  | secondResolver
  | unknownFormat (name : Text)
deriving DecidableEq, Repr

inductive EditorError where
  | configuration (what : Misconfiguration)
  /-- The resolver has no answer for an image of the content. -/
  | missingImage (id : Text)
  | host (failure : Failure)
  | selector (text : Text) (error : Selector.Error)
deriving DecidableEq, Repr

def Misconfiguration.reason : Misconfiguration → Text
  | noResolver => "no image resolver is registered".toList
  | secondResolver => "an image resolver is already registered".toList
  | unknownFormat name => "unknown editor format ".toList ++ '\x60' :: name ++ ['\x60']

def EditorError.message : EditorError → Text
  | configuration what => "configuration error: ".toList ++ what.reason
  | missingImage id => "image \x60".toList ++ id ++ "\x60 is missing from the resolver result".toList
  | host failure => failure
  | selector text error => "invalid selector \x60".toList ++ text ++ "\x60: ".toList ++ error.message

end RichContent
