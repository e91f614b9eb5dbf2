import DevAccess.Foundation.Run
import DevAccess.Foundation.Threads
import DevAccess.Foundation.Forest
import DevAccess.Foundation.Outcome
import DevAccess.Foundation.Renaming
import DevAccess.Foundation.KeyedTree
import DevAccess.Foundation.CText
import DevAccess.Foundation.Calendar
import DevAccess.Foundation.Wildcard
import DevAccess.Foundation.Literals
import DevAccess.Locker.RWLock
import DevAccess.Locker.Invariant
import DevAccess.Locker.Recursive
import DevAccess.Locker.SemPost
import DevAccess.Locker.Semaphore
import DevAccess.Log.LogData
import DevAccess.Log.Bookkeeping
import DevAccess.Log.Matching
import DevAccess.Log.Rotation
import DevAccess.Log.Dump
import DevAccess.Log.Contents
import DevAccess.Log.Deletion
import DevAccess.Log.Ticks
import DevAccess.Log.Assembly
import DevAccess.Log.SimpleLog
import DevAccess.Log.LogNames
import DevAccess.SocketAPI.Leaving
import DevAccess.StrUtilty.Join
import DevAccess.StrUtilty.Trim
import DevAccess.StrUtilty.Places
import DevAccess.StrUtilty.Values
import DevAccess.StrUtilty.Numbers
import DevAccess.StrUtilty.LastValue
import DevAccess.StrUtilty.KeyValue
import DevAccess.TinyXml.Base
import DevAccess.TinyXml.Parser
import DevAccess.TinyXml.Printer
import DevAccess.TinyXml.Entities
import DevAccess.TinyXml.Spelling
import DevAccess.TinyXml.Texts
import DevAccess.TinyXml.Written
import DevAccess.TinyXml.Printing
import DevAccess.TinyXml.RoundTrip
import DevAccess.TinyXml.Saving
import DevAccess.TinyXml.Files
import DevAccess.TinyXml.Elements
import DevAccess.TinyXml.Reading
import DevAccess.TinyXml.Truncated
import DevAccess.TinyXml.Accepted
import DevAccess.TinyXml.Reloading
import DevAccess.TinyXml.References
import DevAccess.Xml.Document
import DevAccess.Xml.Maker
import DevAccess.Xml.Paths
import DevAccess.Xml.Cursor
import DevAccess.Xml.PutGet
import DevAccess.Xml.Hex
import DevAccess.Xml.HexBounds
import DevAccess.Xml.Getters
import DevAccess.Xml.TextBuilder
import DevAccess.Xml.Adding
import DevAccess.Xml.Goals
import DevAccess.Xml.Appending
import DevAccess.Xml.Grammar
import DevAccess.Xml.Fidelity
import DevAccess.Xml.Renaming
import DevAccess.Xml.Calls
import DevAccess.Xml.Reload
import DevAccess.Config.ConfigHelper
import DevAccess.Config.Loading
import DevAccess.Config.Fields
import DevAccess.Config.Numbers
import DevAccess.Config.Files
import DevAccess.ModbusTcp.Requests
import DevAccess.ModbusTcp.Server
import DevAccess.ModbusTcp.Connection
import DevAccess.ModbusTcp.Stream
import DevAccess.ModbusTcp.Frames
import DevAccess.ModbusTcp.Refusals
import DevAccess.ModbusTcp.Transactions
import DevAccess.Poll.Driver
import DevAccess.Poll.Reports
import DevAccess.Poll.Stopping
import DevAccess.Poll.Device
import DevAccess.Poll.Sockets
import DevAccess.Poll.XinJie
import DevAccess.Poll.Events
import DevAccess.Poll.Changes
import DevAccess.Mes.DbHelper
import DevAccess.Mes.Statement
import DevAccess.Mes.Url
import DevAccess.Manager.Program
import DevAccess.Manager.Starting
import DevAccess.Manager.Rows
import DevAccess.Manager.Running
import DevAccess.Manager.Delivery
import DevAccess.Manager.Isolation
import DevAccess.Manager.CatchUp
import DevAccess.ModbusTcp.Refusals
