import RichContent.Main
import RichContent.CommandLine.FileTree
import RichContent.Json.Reader
import RichContent.Proofs.Markup.Tiling
import RichContent.Proofs.Markup.Positions
import RichContent.Proofs.Markup.Lossless
import RichContent.Proofs.Markup.Replacement
import RichContent.Proofs.Editor.Stages
import RichContent.Proofs.Editor.Expansion
import RichContent.Proofs.Text.Reference
import RichContent.Proofs.Text.Decoding
import RichContent.Proofs.Markup.StartTag
import RichContent.Proofs.Markup.Piece
import RichContent.Proofs.Editor.Fragments
import RichContent.Proofs.Editor.Page
import RichContent.Proofs.Editor.Batch
import RichContent.Proofs.Markup.Selection
import RichContent.Proofs.Markup.Patch
import RichContent.Proofs.Markup.Stretch
import RichContent.Proofs.Editor.Settled
import RichContent.Proofs.Editor.Idempotence
import RichContent.Proofs.Selector.Reading
import RichContent.Proofs.Selector.Acceptance
import RichContent.Proofs.Markup.Attributes
import RichContent.Proofs.Selector.Pasted
import RichContent.Proofs.Editor.Names
import RichContent.Proofs.Editor.Payload
import RichContent.Proofs.Markup.Breaks
import RichContent.Proofs.Markup.Lexing
import RichContent.Proofs.Markup.TagEnd
import RichContent.Proofs.Markup.AttributeScan
import RichContent.Proofs.Markup.TagQuotes
import RichContent.Proofs.Markup.Spared
import RichContent.Proofs.Editor.Textarea
import RichContent.Proofs.Editor.History
import RichContent.Proofs.Markup.Descendants
import RichContent.Proofs.Markup.Rewritten
import RichContent.Proofs.Markup.EndTags
import RichContent.Proofs.Markup.Escaped
import RichContent.Proofs.Markup.SelfClosing
import RichContent.Proofs.Selector.Viable
import RichContent.Proofs.Selector.Obstacles
import RichContent.Proofs.Selector.ErrorSpans
import RichContent.Proofs.Selector.Backtracking
import RichContent.Proofs.Json.Printing
import RichContent.Proofs.Editor.Calls
import RichContent.Proofs.Editor.Script
import RichContent.Proofs.Editor.FileList
import RichContent.Proofs.Markup.DocumentArena
import RichContent.Proofs.Markup.ByteParse
