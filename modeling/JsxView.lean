import JsxView.Main
import JsxView.Proofs.CursorCell
import JsxView.Proofs.LineEdit
import JsxView.Proofs.PageReader
import JsxView.Proofs.TokenOrder
import JsxView.Proofs.ClickedLine
import JsxView.Proofs.Cut
import JsxView.Proofs.InertFrame
import JsxView.Proofs.MatchBorders
import JsxView.Proofs.Passes
import JsxView.Proofs.MarkerCollision
import JsxView.Proofs.MarkerHeads
import JsxView.Proofs.Margins
import JsxView.Proofs.Regex
import JsxView.Proofs.MarginTokens
import JsxView.Proofs.FileStore
import JsxView.Proofs.InnermostMarker
import JsxView.Proofs.SideEffects
import JsxView.Proofs.Typing
import JsxView.Proofs.CursorOffset
import JsxView.Proofs.EditCancel
import JsxView.Proofs.ShownWindow
import JsxView.Proofs.WholeLine
import JsxView.Proofs.Expressions
import JsxView.Proofs.FindAll
import JsxView.Proofs.QuotedLiteral
import JsxView.Proofs.NumberMatch
import JsxView.Proofs.WordRun
import JsxView.Proofs.CommentsTags
import JsxView.Proofs.AttributeNames
import JsxView.Proofs.StatsExpressions
import JsxView.Proofs.StatsLines
import JsxView.Proofs.FunctionWalk
import JsxView.Proofs.Scrolling
import JsxView.Proofs.Looks
import JsxView.Proofs.Arguments
import JsxView.Proofs.FontSizes
import JsxView.Proofs.Retries
import JsxView.Proofs.FindInside
